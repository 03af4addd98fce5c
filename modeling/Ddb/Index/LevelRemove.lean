import Ddb.Index.Levels

/-!
# Levels that have lost an item

After a merge below it a node lacks an item and may be too small. `rebalance_internal` moves an item over from a neighbour
under the same parent or merges the two, which takes an item from the parent in turn. The items below do not change in
either case, only how they are grouped. A root with a single child gives way to it.
-/

namespace Ddb.Index

open Ddb.Lib Ddb.Storage

variable {tree : BPlusTree} {s t : Store} {hole : Option PageId} {level : List Inner} {above levels : List (List Inner)}
  {items xs ys : List Item} {config : BPlusTreeConfig}

/-- The operation brings the levels in order, over the same items. -/
def TreeOp.Mends (x : TreeOp Unit) (tree : BPlusTree) (s : Store) (levels : List (List Inner)) (items : List Item) : Prop :=
  x.Does tree s fun _ tree' s' => ∃ levels', Upper tree' s' none levels' items ∧
    Repaired tree tree' s s' (items.map Prod.snd) levels levels'

/-! ## The node that lacks a key -/

theorem Filled.of_not_mem {id : PageId} (h : Filled config (some id) levels) (hid : id ∉ innerIds levels) :
    Filled config none levels := by
  induction levels with
  | nil => trivial
  | cons level above ih =>
    rw [innerIds_cons, List.mem_append, not_or] at hid
    refine ⟨fun g hg => ?_, ih h.2 hid.2⟩
    have hne : some id ≠ some g.id := fun heq => hid.1 (Option.some.inj heq ▸ List.mem_map_of_mem hg)
    have hg := h.1 g hg
    rw [if_neg hne] at hg
    simpa using hg

theorem Filled.weaken (h : Filled config none levels) (hole : Option PageId) : Filled config hole levels := by
  induction levels with
  | nil => trivial
  | cons level above ih =>
    refine ⟨fun g hg => ?_, ih h.2⟩
    have hg := h.1 g hg
    simp only [reduceCtorEq, if_false] at hg
    exact ⟨hg.1, by omega⟩

namespace Upper

theorem fill (h : Upper tree s hole levels items) (hfilled : Filled tree.config none levels) : Upper tree s none levels items :=
  ⟨h.accepted, h.header, h.tower, h.ids, h.valid, hfilled⟩

theorem weaken (h : Upper tree s none levels items) (hole : Option PageId) : Upper tree s hole levels items :=
  ⟨h.accepted, h.header, h.tower, h.ids, h.valid, h.filled.weaken hole⟩

variable {before after : List Inner} {g : Inner}

theorem up_full (h : Upper tree s (some g.id) ((before ++ g :: after) :: above) items) :
    Upper tree s none above ((before ++ g :: after).map Group.item) :=
  h.up.fill (h.up.filled.of_not_mem (h.up.items_apart (by simp [Group.item])).1)

theorem id_ne (h : Upper tree s hole ((before ++ g :: after) :: above) items) {other : Inner} (hother : other ∈ before ++ after) :
    other.id ≠ g.id := by
  have hids := h.above_ids.of_append_left
  rw [List.map_append, List.map_cons, List.nodup_middle, ← List.map_append] at hids
  exact fun heq => (List.nodup_cons.mp hids).1 (heq ▸ List.mem_map_of_mem hother)

/-- The node has its keys after all. -/
theorem fill_node (before : List Inner) (h : Upper tree s (some g.id) ((before ++ g :: after) :: above) items)
    (hmin : minKeys tree.config above ≤ g.rest.length) : Upper tree s none ((before ++ g :: after) :: above) items := by
  refine h.fill ⟨fun other hother => ?_, h.up_full.filled⟩
  have hold := h.filled.1 other hother
  refine ⟨hold.1, ?_⟩
  by_cases heq : other.id = g.id
  · rcases mem_middle.mp hother with rfl | hmem
    · exact Nat.le_add_right_of_le hmin
    · exact absurd heq (h.id_ne hmem)
  · rw [if_neg fun hcontra => heq (Option.some.inj hcontra).symm] at hold
    simpa using hold.2

theorem root_mem (h : Upper tree s hole levels items) (hne : levels ≠ []) : tree.root ∈ innerIds levels := by
  induction levels generalizing items with
  | nil => exact absurd rfl hne
  | cons level above ih =>
    cases above with
    | nil =>
      obtain ⟨⟨key, hitems⟩, -⟩ := h.up.tower
      obtain ⟨g, hlevel, hg⟩ := List.map_eq_singleton_iff.mp hitems
      subst hlevel
      have hid : tree.root = g.id := (congrArg Prod.snd hg).symm
      rw [hid]
      exact mem_innerIds (by simp)
    | cons up above => exact mem_innerIds_above (ih h.up (by simp))

/-- A node below the top is not the root. -/
theorem ne_root {up : List Inner} (h : Upper tree s hole (level :: up :: above) items) (hg : g ∈ level) : g.id ≠ tree.root := by
  intro heq
  have hroot := h.up.root_mem (by simp)
  rw [← heq] at hroot
  exact (h.up.items_apart (p := g.id) (by rw [item_ids]; exact List.mem_map_of_mem hg)).1 hroot

end Upper

/-! ## Changes of the parent -/

/-- The parent of two neighbours. -/
structure Siblings (level : List Inner) (xs ys : List Item) (x y : Item) (before : List Inner) (q : Inner)
    (after : List Inner) (ps qs : List Item) : Prop where
  level : level = before ++ q :: after
  items : q.items = ps ++ x :: y :: qs
  left : xs = before.flatMap Group.items ++ ps
  right : ys = qs ++ after.flatMap Group.items

/-- The store has the parent with its new content, and the items still know their parents. -/
structure ParentWritten (tree : BPlusTree) (s t : Store) (levels : List (List Inner)) (items : List Item) (q q' : Inner) : Prop where
  node : ∃ parent, s q.id = some (.node (Inner.node q parent)) ∧ t q.id = some (.node (Inner.node q' parent))
  same : ∀ id ∈ tree.metadata :: innerIds levels, id ≠ q.id → t id = s id
  parents : ∀ id ∈ items.map Prod.snd, ∀ parent, HasParent s id parent → HasParent t id parent

section Siblings

variable {before after : List Inner} {q : Inner} {ps qs : List Item} {x y : Item}

theorem Siblings.rest (h : Siblings level xs ys x y before q after ps qs) :
    ∃ rest, q.rest = rest ++ y :: qs ∧ rest.length = ps.length ∧ q.head :: rest = ps ++ [x] := by
  obtain ⟨head, rest, hps⟩ : ∃ head rest, ps ++ [x] = head :: rest := List.exists_cons_of_ne_nil (by simp)
  have hitems : q.head :: q.rest = head :: (rest ++ y :: qs) := by
    have := h.items
    rw [Group.items] at this
    rw [this, ← List.cons_append, ← hps]
    simp
  obtain ⟨hhead, hrest⟩ := List.cons.inj hitems
  refine ⟨rest, hrest, ?_, by rw [hhead, hps]⟩
  have hlength := congrArg List.length hps
  simpa using hlength.symm

/-- The parent with another key for the second of the two. -/
theorem Siblings.set_node (h : Siblings level xs ys x y before q after ps qs) (parent : PageId) (key : KeyType) :
    { Inner.node q parent with keys := (Inner.node q parent).keys.set ps.length key } =
      Inner.node ⟨q.id, q.head, q.rest.set ps.length (key, y.2)⟩ parent := by
  obtain ⟨rest, hrest, hlength, -⟩ := h.rest
  simp [Inner.node, Group.keys, Group.children, Group.items, hrest, ← hlength]

/-- The parent without the second of the two. -/
theorem Siblings.erase_node (h : Siblings level xs ys x y before q after ps qs) (parent : PageId) :
    ps.length < (Inner.node q parent).keys.length ∧ ps.length + 1 < (Inner.node q parent).children.length ∧
      { Inner.node q parent with
        keys := (Inner.node q parent).keys.eraseIdx ps.length
        children := (Inner.node q parent).children.eraseIdx (ps.length + 1) } =
          Inner.node ⟨q.id, q.head, q.rest.eraseIdx ps.length⟩ parent := by
  obtain ⟨rest, hrest, hlength, -⟩ := h.rest
  have hcount : ps.length < q.rest.length := by
    rw [hrest, ← hlength]
    simp
  refine ⟨by simpa [Inner.node, Group.keys] using hcount, by simpa [Inner.node, Group.children, Group.items] using hcount, ?_⟩
  simp [Inner.node, Group.keys, Group.children, Group.items, List.eraseIdx_map]

/-- What the parent's vectors say about the two. -/
theorem Siblings.reads (h : Siblings level xs ys x y before q after ps qs) (parent : PageId) :
    (Inner.node q parent).children[ps.length]? = some x.2 ∧ (Inner.node q parent).children[ps.length + 1]? = some y.2 ∧
      (Inner.node q parent).keys[ps.length]? = some y.1 ∧ ps.length < (Inner.node q parent).keys.length := by
  obtain ⟨rest, hrest, hlength, -⟩ := h.rest
  have hchildren : (Inner.node q parent).children = ps.map Prod.snd ++ x.2 :: y.2 :: qs.map Prod.snd := by
    simp only [Inner.node, Group.children, h.items, List.map_append, List.map_cons]
  have hkeys : (Inner.node q parent).keys = rest.map Prod.fst ++ y.1 :: qs.map Prod.fst := by
    simp only [Inner.node, Group.keys, hrest, List.map_append, List.map_cons]
  have hps : ps.length = (ps.map Prod.snd).length := (List.length_map _).symm
  have hrs : ps.length = (rest.map Prod.fst).length := by rw [List.length_map, hlength]
  refine ⟨?_, ?_, ?_, (h.erase_node parent).1⟩
  · rw [hchildren, hps, List.getElem?_append_right le_rfl]
    simp
  · rw [hchildren, hps, List.getElem?_append_right (Nat.le_succ _)]
    simp
  · rw [hkeys, hrs, List.getElem?_append_right le_rfl]
    simp

/-- The second of the two gets another key. -/
theorem Upper.setItem (h : Upper tree s hole (level :: above) (xs ++ x :: y :: ys))
    (hsib : Siblings level xs ys x y before q after ps qs) {key : KeyType}
    (ht : ParentWritten tree s t (level :: above) (xs ++ x :: y :: ys) q ⟨q.id, q.head, q.rest.set ps.length (key, y.2)⟩) :
    Upper tree t hole ((before ++ ⟨q.id, q.head, q.rest.set ps.length (key, y.2)⟩ :: after) :: above)
      (xs ++ x :: (key, y.2) :: ys) := by
  obtain ⟨rest, hrest, hlength, hhead⟩ := hsib.rest
  obtain ⟨rfl, hitems, rfl, rfl⟩ := hsib
  have hset : q.rest.set ps.length (key, y.2) = rest ++ (key, y.2) :: qs := by
    rw [hrest, ← hlength]
    simp
  have hflat : (before ++ ⟨q.id, q.head, q.rest.set ps.length (key, y.2)⟩ :: after).flatMap Group.items =
      (before.flatMap Group.items ++ ps) ++ x :: (key, y.2) :: (qs ++ after.flatMap Group.items) := by
    rw [hset, List.flatMap_append, List.flatMap_cons, Group.items, ← List.cons_append, hhead]
    simp
  have hchildren : (⟨q.id, q.head, q.rest.set ps.length (key, y.2)⟩ : Inner).children = q.children := by
    rw [hset, Group.children, Group.children, Group.items, Group.items, hrest]
    simp
  have hkept : ∀ other ∈ before ++ q :: after, ∀ c ∈ other.children, HasParent t c other.id := fun other hother c hc =>
    ht.parents c (h.child_mem hother hc) _ ((h.tower.2.1 other hother).children c hc)
  rw [← hflat]
  refine h.replace rfl rfl ht.node ht.same ?_ ?_ ?_ ?_ ?_
  · intro other hother c hc _
    exact hkept other (mem_middle.mpr (.inr hother)) c hc
  · exact fun c hc => hkept q (by simp) c (hchildren ▸ hc)
  · rw [hflat]
    have hnodup := h.ids.of_append_left
    simpa using hnodup
  · exact fun c hc => (h.items_apart (h.child_mem (by simp) (hchildren ▸ hc))).1
  · simpa using h.filled.1 q (by simp)

/-- The second of the two is dropped, and the parent may be too small then. -/
theorem Upper.dropItem (h : Upper tree s none (level :: above) (xs ++ x :: y :: ys))
    (hsib : Siblings level xs ys x y before q after ps qs)
    (ht : ParentWritten tree s t (level :: above) (xs ++ x :: y :: ys) q ⟨q.id, q.head, q.rest.eraseIdx ps.length⟩) :
    Upper tree t (some q.id) ((before ++ ⟨q.id, q.head, q.rest.eraseIdx ps.length⟩ :: after) :: above) (xs ++ x :: ys) := by
  obtain ⟨rest, hrest, hlength, hhead⟩ := hsib.rest
  obtain ⟨rfl, hitems, rfl, rfl⟩ := hsib
  have herase : q.rest.eraseIdx ps.length = rest ++ qs := by
    rw [hrest, ← hlength, List.eraseIdx_append_of_length_le le_rfl]
    simp
  have hflat : (before ++ ⟨q.id, q.head, q.rest.eraseIdx ps.length⟩ :: after).flatMap Group.items =
      (before.flatMap Group.items ++ ps) ++ x :: (qs ++ after.flatMap Group.items) := by
    rw [herase, List.flatMap_append, List.flatMap_cons, Group.items, ← List.cons_append, hhead]
    simp
  have hchildren : ∀ c ∈ (⟨q.id, q.head, q.rest.eraseIdx ps.length⟩ : Inner).children, c ∈ q.children := by
    intro c hc
    rw [herase, Group.children, Group.items] at hc
    rw [Group.children, Group.items, hrest]
    simp only [List.map_cons, List.map_append, List.mem_cons, List.mem_append] at hc ⊢
    tauto
  have hkept : ∀ other ∈ before ++ q :: after, ∀ c ∈ other.children, HasParent t c other.id := fun other hother c hc =>
    ht.parents c (h.child_mem hother hc) _ ((h.tower.2.1 other hother).children c hc)
  rw [← hflat]
  refine (h.weaken (some q.id)).replace rfl rfl ht.node ht.same ?_ ?_ ?_ ?_ ?_
  · intro other hother c hc _
    exact hkept other (mem_middle.mpr (.inr hother)) c hc
  · exact fun c hc => hkept q (by simp) c (hchildren c hc)
  · rw [hflat]
    have hnodup := h.ids.of_append_left
    rw [List.map_append, List.map_cons, List.map_cons] at hnodup
    rw [List.map_append, List.map_cons]
    exact hnodup.sublist (List.Sublist.append_left ((List.sublist_cons_self _ _).cons_cons _) _)
  · exact fun c hc => (h.items_apart (h.child_mem (by simp) (hchildren c hc))).1
  · have hold := h.filled.1 q (by simp)
    have hcount : (q.rest.eraseIdx ps.length).length + 1 = q.rest.length := by
      rw [herase, hrest]
      simp
      omega
    simp only [reduceCtorEq, if_false, if_true] at hold ⊢
    omega

end Siblings

/-! ## Neighbours -/

theorem minKeys_le (h : config.Accepted) (levels : List (List Inner)) : minKeys config levels ≤ config.internalMaxKeys / 2 := by
  have hmax := h.internal
  cases levels with
  | nil => simp only [minKeys]; omega
  | cons level above => exact le_rfl

/-- Two neighbours of a level under one parent. -/
structure Pair (tree : BPlusTree) (s : Store) (hole : Option PageId) (rest : List (List Inner)) (items : List Item)
    (pre : List Inner) (a b : Inner) (post : List Inner) (before : List Inner) (q : Inner) (after : List Inner)
    (ps qs : List Item) : Prop where
  upper : Upper tree s hole ((pre ++ a :: b :: post) :: (before ++ q :: after) :: rest) items
  full : Upper tree s none ((before ++ q :: after) :: rest) ((pre ++ a :: b :: post).map Group.item)
  siblings : Siblings (before ++ q :: after) (pre.map Group.item) (post.map Group.item) a.item b.item before q after ps qs
  min : ∀ g ∈ pre ++ post, tree.config.internalMaxKeys / 2 ≤ g.rest.length

/-- The store in which the nodes have been written: the first of the two and the parent have new contents, and the children
of the level know their parents. -/
structure PairWritten (tree : BPlusTree) (s t : Store) (levels : List (List Inner)) (level : List Inner) (a a' b q q' : Inner) :
    Prop where
  same : ∀ id ∈ tree.metadata :: innerIds levels, id ≠ a.id → id ≠ b.id → id ≠ q.id → t id = s id
  first : ∃ parent, s a.id = some (.node (Inner.node a parent)) ∧ t a.id = some (.node (Inner.node a' parent))
  parent : ∃ parent, s q.id = some (.node (Inner.node q parent)) ∧ t q.id = some (.node (Inner.node q' parent))
  kids : ∀ g ∈ level, ∀ c ∈ g.children, HasParent t c g.id

section Pair

variable {rest : List (List Inner)} {pre post before after : List Inner} {a a' b b' q q' : Inner} {ps qs : List Item}

theorem HasParent.unique {id p p' : PageId} (h : HasParent s id p) (h' : HasParent s id p') : p = p' := by
  obtain ⟨node, hnode, rfl⟩ := h
  obtain ⟨node', hnode', rfl⟩ := h'
  obtain rfl := Cell.node.inj (Option.some.inj (hnode.symm.trans hnode'))
  rfl

theorem HasParent.of_nodes {g g' : Inner} {id : PageId}
    (hnode : ∃ parent, s id = some (.node (Inner.node g parent)) ∧ t id = some (.node (Inner.node g' parent))) {p : PageId}
    (h : HasParent s id p) : HasParent t id p := by
  obtain ⟨parent, hold, hnew⟩ := hnode
  obtain ⟨node, hnode, rfl⟩ := h
  obtain rfl := Cell.node.inj (Option.some.inj (hold.symm.trans hnode))
  exact ⟨_, hnew, rfl⟩

theorem HasParent.reparent_of_ne {c moved p parent : PageId} (h : HasParent s c parent) (hne : c ≠ moved) :
    HasParent (s.reparent p [moved]) c parent := by
  obtain ⟨node, hnode, hparent⟩ := h
  exact ⟨node, by rw [Store.reparent_of_not_mem (by simpa using hne)]; exact hnode, hparent⟩

theorem HasParent.reparent_self {moved p parent : PageId} (h : HasParent s moved parent) :
    HasParent (s.reparent p [moved]) moved p := by
  obtain ⟨node, hnode, -⟩ := h
  exact ⟨{ node with parent := p }, by rw [Store.reparent_of_mem (by simp), hnode]; rfl, rfl⟩

namespace Pair

variable (h : Pair tree s hole rest items pre a b post before q after ps qs) {climb : PageId → TreeOp Unit} {g : Inner}

include h

theorem level_ne (hg : g ∈ pre ++ post) : g.id ≠ a.id ∧ g.id ≠ b.id := by
  have hids := h.upper.above_ids.of_append_left
  rw [List.map_append, List.map_cons, List.map_cons, List.nodup_middle, List.nodup_cons, List.nodup_middle, List.nodup_cons,
    ← List.map_append] at hids
  refine ⟨fun heq => hids.1 ?_, fun heq => hids.2.1 (heq ▸ List.mem_map_of_mem hg)⟩
  have hmem : g.id ∈ (pre ++ post).map Group.id := List.mem_map_of_mem hg
  rw [heq] at hmem
  simp only [List.map_append, List.mem_append, List.mem_cons] at hmem ⊢
  tauto

theorem ids_ne : a.id ≠ b.id := by
  have hids := h.upper.above_ids.of_append_left
  rw [List.map_append, List.map_cons, List.map_cons] at hids
  have htail := (List.nodup_append.mp hids).2.1
  exact fun heq => (List.nodup_cons.mp htail).1 (heq ▸ List.mem_cons_self)

theorem parent_ne (hg : g ∈ pre ++ a :: b :: post) : g.id ≠ q.id := by
  intro heq
  have hmem : g.id ∈ ((pre ++ a :: b :: post).map Group.item).map Prod.snd := by
    rw [item_ids]
    exact List.mem_map_of_mem hg
  exact (h.full.items_apart hmem).1 (heq ▸ mem_innerIds (by simp))

theorem distinct : a.id ≠ b.id ∧ a.id ≠ q.id ∧ b.id ≠ q.id :=
  ⟨h.ids_ne, h.parent_ne (g := a) (by simp), h.parent_ne (g := b) (by simp)⟩

omit h in
theorem mem_levels : (a.id ∈ innerIds ((pre ++ a :: b :: post) :: (before ++ q :: after) :: rest) ∧
      b.id ∈ innerIds ((pre ++ a :: b :: post) :: (before ++ q :: after) :: rest)) ∧
    q.id ∈ innerIds ((pre ++ a :: b :: post) :: (before ++ q :: after) :: rest) :=
  ⟨⟨mem_innerIds (by simp), mem_innerIds (by simp)⟩, mem_innerIds_above (mem_innerIds (by simp))⟩

/-- Items are none of the nodes. -/
theorem item_ne {c : PageId} (hc : c ∈ items.map Prod.snd) : c ≠ a.id ∧ c ≠ b.id ∧ c ≠ q.id := by
  obtain ⟨⟨ha, hb⟩, hq⟩ := @mem_levels rest pre post before after a b q
  have hnot := (h.upper.items_apart hc).1
  exact ⟨fun heq => hnot (heq ▸ ha), fun heq => hnot (heq ▸ hb), fun heq => hnot (heq ▸ hq)⟩

/-- Giving items another parent changes no node of the levels. -/
theorem reparent_levels (p : PageId) (moved : List PageId) (hmoved : ∀ c ∈ moved, c ∈ items.map Prod.snd) :
    ∀ c ∈ tree.metadata :: innerIds ((pre ++ a :: b :: post) :: (before ++ q :: after) :: rest),
      s.reparent p moved c = s c := by
  intro c hc
  refine Store.reparent_of_not_mem fun hin => ?_
  have hapart := h.upper.items_apart (hmoved c hin)
  exact (List.mem_cons.mp hc).elim hapart.2.2 hapart.1

theorem sizes (hg : g ∈ pre ++ post) :
    g.rest.length ≤ tree.config.internalMaxKeys ∧ tree.config.internalMaxKeys / 2 ≤ g.rest.length :=
  ⟨(h.upper.filled.1 g (mem_middle_pair.mpr (.inr (.inr hg)))).1, h.min g hg⟩

theorem parentWritten (ht : PairWritten tree s t ((pre ++ a :: b :: post) :: (before ++ q :: after) :: rest) level a a' b q q')
    (hb : ∀ p, HasParent s b.id p → HasParent t b.id p) :
    ParentWritten tree s t ((before ++ q :: after) :: rest) ((pre ++ a :: b :: post).map Group.item) q q' := by
  have hnot : ∀ id ∈ tree.metadata :: innerIds ((before ++ q :: after) :: rest), ∀ g ∈ pre ++ a :: b :: post, id ≠ g.id := by
    rintro id hid g hg rfl
    have hmem : g.id ∈ ((pre ++ a :: b :: post).map Group.item).map Prod.snd := by
      rw [item_ids]
      exact List.mem_map_of_mem hg
    have hapart := h.full.items_apart hmem
    exact (List.mem_cons.mp hid).elim hapart.2.2 hapart.1
  refine ⟨ht.parent, fun id hid hne => ?_, fun id hid p hp => ?_⟩
  · refine ht.same id ?_ (hnot id hid a (by simp)) (hnot id hid b (by simp)) hne
    rcases List.mem_cons.mp hid with rfl | hid
    · exact List.mem_cons_self
    · exact List.mem_cons_of_mem _ (mem_innerIds_above hid)
  · rw [item_ids] at hid
    obtain ⟨g, hg, rfl⟩ := List.mem_map.mp hid
    rcases mem_middle_pair.mp hg with rfl | rfl | hin
    · exact hp.of_nodes ht.first
    · exact hb p hp
    · obtain ⟨node, hnode, hparent⟩ := hp
      refine ⟨node, ?_, hparent⟩
      rw [ht.same g.id (List.mem_cons_of_mem _ (mem_innerIds hg)) (h.level_ne hin).1 (h.level_ne hin).2 (h.parent_ne hg)]
      exact hnode

theorem innerAt_other (ht : PairWritten tree s t ((pre ++ a :: b :: post) :: (before ++ q :: after) :: rest) level a a' b q q')
    (hg : g ∈ pre ++ post) (hlevel : g ∈ level) : InnerAt t g := by
  have hin : g ∈ pre ++ a :: b :: post := mem_middle_pair.mpr (.inr (.inr hg))
  refine ⟨?_, ht.kids g hlevel⟩
  rw [ht.same g.id (List.mem_cons_of_mem _ (mem_innerIds hin)) (h.level_ne hg).1 (h.level_ne hg).2 (h.parent_ne hin)]
  exact (h.upper.tower.2.1 g hin).node

omit h in
theorem shift_items {level : List Item} (hlevel : (pre ++ a :: b :: post).flatMap Group.items = level)
    (hitems : a'.items ++ b'.items = a.items ++ b.items) : (pre ++ a' :: b' :: post).flatMap Group.items = level := by
  rw [← hlevel]
  simp only [List.flatMap_append, List.flatMap_cons, ← List.append_assoc]
  rw [List.append_assoc _ a'.items, hitems, ← List.append_assoc]

/-- Items have moved from one of the two to the other. -/
theorem shift (ha : a'.id = a.id) (hhead : a'.head = a.head) (hb : b'.id = b.id)
    (hitems : a'.items ++ b'.items = a.items ++ b.items)
    (hsize : ∀ g ∈ [a', b'], g.rest.length ≤ tree.config.internalMaxKeys ∧ tree.config.internalMaxKeys / 2 ≤ g.rest.length)
    (ht : PairWritten tree s t ((pre ++ a :: b :: post) :: (before ++ q :: after) :: rest) (pre ++ a' :: b' :: post) a a' b q
      ⟨q.id, q.head, q.rest.set ps.length (b'.head.1, b.id)⟩)
    (hsecond : ∃ parent, s b.id = some (.node (Inner.node b parent)) ∧ t b.id = some (.node (Inner.node b' parent))) :
    Upper tree t none ((pre ++ a' :: b' :: post) ::
      (before ++ ⟨q.id, q.head, q.rest.set ps.length (b'.head.1, b.id)⟩ :: after) :: rest) items := by
  have hflat := shift_items h.upper.tower.1 hitems
  have hids : (pre ++ a' :: b' :: post).map Group.id = (pre ++ a :: b :: post).map Group.id := by simp [ha, hb]
  have hfull := h.full
  rw [List.map_append, List.map_cons, List.map_cons] at hfull
  have hup := hfull.setItem h.siblings (by
    rw [← List.map_cons, ← List.map_cons, ← List.map_append]
    exact h.parentWritten ht fun p hp => hp.of_nodes hsecond)
  refine Upper.cons ?_ hflat (fun g hg => ?_) h.upper.ids.of_append_left (fun c hc => ?_) (fun g hg => ?_) fun g hg => ?_
  · have hitem : (pre ++ a' :: b' :: post).map Group.item =
        pre.map Group.item ++ a.item :: (b'.head.1, b.item.2) :: post.map Group.item := by
      simp [Group.item, ha, hb, hhead]
    rw [hitem]
    exact hup
  · rcases mem_middle_pair.mp hg with rfl | rfl | hin
    · obtain ⟨parent, -, hnode⟩ := ht.first
      exact ⟨⟨parent, by rw [ha]; exact hnode⟩, ht.kids g hg⟩
    · obtain ⟨parent, -, hnode⟩ := hsecond
      exact ⟨⟨parent, by rw [hb]; exact hnode⟩, ht.kids g hg⟩
    · exact h.innerAt_other ht hin hg
  · have hapart := (h.upper.items_apart hc).1
    rw [hids]
    simpa [innerIds_cons] using hapart
  · have hmem : g.id ∈ (pre ++ a :: b :: post).map Group.id := hids ▸ List.mem_map_of_mem hg
    exact h.upper.valid g.id (by rw [innerIds_cons]; exact List.mem_append_left _ hmem)
  · have hmin := minKeys_le h.upper.accepted
      ((before ++ ⟨q.id, q.head, q.rest.set ps.length (b'.head.1, b.id)⟩ :: after) :: rest)
    have hg : g.rest.length ≤ tree.config.internalMaxKeys ∧ tree.config.internalMaxKeys / 2 ≤ g.rest.length := by
      rcases mem_middle_pair.mp hg with rfl | rfl | hin
      · exact hsize g (by simp)
      · exact hsize g (by simp)
      · exact h.sizes hin
    exact ⟨hg.1, by omega⟩

/-- The second of the two has gone into the first. -/
theorem merge (ha : a'.id = a.id) (hhead : a'.head = a.head)
    (ht : PairWritten tree s t ((pre ++ a :: b :: post) :: (before ++ q :: after) :: rest) (pre ++ a' :: post) a a' b q
      ⟨q.id, q.head, q.rest.eraseIdx ps.length⟩) (hb : t b.id = s b.id) :
    Upper tree t (some q.id) ((before ++ ⟨q.id, q.head, q.rest.eraseIdx ps.length⟩ :: after) :: rest)
      ((pre ++ a' :: post).map Group.item) ∧ ∀ g ∈ pre ++ a' :: post, InnerAt t g := by
  have hfull := h.full
  rw [List.map_append, List.map_cons, List.map_cons] at hfull
  have hup := hfull.dropItem h.siblings (by
    rw [← List.map_cons, ← List.map_cons, ← List.map_append]
    refine h.parentWritten ht fun p hp => ?_
    obtain ⟨node, hnode, hparent⟩ := hp
    exact ⟨node, hb ▸ hnode, hparent⟩)
  refine ⟨?_, fun g hg => ?_⟩
  · have hitem : (pre ++ a' :: post).map Group.item = pre.map Group.item ++ a.item :: post.map Group.item := by
      simp [Group.item, ha, hhead]
    rw [hitem]
    exact hup
  · rcases mem_middle.mp hg with rfl | hin
    · obtain ⟨parent, -, hnode⟩ := ht.first
      exact ⟨⟨parent, by rw [ha]; exact hnode⟩, ht.kids g hg⟩
    · exact h.innerAt_other ht hin hg

/-- The level after a merge, once the levels above are in order again. -/
theorem merged {tree' : BPlusTree} {s' : Store} {levels' : List (List Inner)} {q' : Inner} (ha : a'.id = a.id) (hq : q'.id = q.id)
    (hitems : a'.items = a.items ++ b.items)
    (hsize : a'.rest.length ≤ tree.config.internalMaxKeys ∧ tree.config.internalMaxKeys / 2 ≤ a'.rest.length)
    (hthere : ∀ c, s c ≠ none → t c ≠ none) (hinner : ∀ g ∈ pre ++ a' :: post, InnerAt t g)
    (hrep : Repaired tree tree' t s' (((pre ++ a' :: post).map Group.item).map Prod.snd) ((before ++ q' :: after) :: rest) levels')
    (hup : Upper tree' s' none levels' ((pre ++ a' :: post).map Group.item)) :
    Upper tree' s' none ((pre ++ a' :: post) :: levels') items := by
  have hflat : (pre ++ a' :: post).flatMap Group.items = items := by
    rw [← h.upper.tower.1]
    simp [hitems]
  have hids : ∀ g ∈ pre ++ a' :: post, g.id ∈ (pre ++ a :: b :: post).map Group.id := by
    intro g hg
    rcases mem_middle.mp hg with rfl | hin
    · rw [ha]
      exact List.mem_map_of_mem (by simp)
    · exact List.mem_map_of_mem (mem_middle_pair.mpr (.inr (.inr hin)))
  have hinnerIds : innerIds ((before ++ q' :: after) :: rest) = innerIds ((before ++ q :: after) :: rest) := by
    simp [innerIds_cons, hq]
  have happart : ∀ c ∈ items.map Prod.snd, (∀ g ∈ pre ++ a' :: post, c ≠ g.id) ∧
      c ∉ innerIds ((before ++ q :: after) :: rest) ∧ s c ≠ none ∧ c ≠ tree.metadata := by
    intro c hc
    obtain ⟨hnot, hsome, hmeta⟩ := h.upper.items_apart hc
    rw [innerIds_cons, List.mem_append, not_or] at hnot
    exact ⟨fun g hg heq => hnot.1 (heq ▸ hids g hg), hnot.2, hsome, hmeta⟩
  have hlower : ∀ c ∈ items.map Prod.snd, c ∉ ((pre ++ a' :: post).map Group.item).map Prod.snd := by
    intro c hc hin
    rw [item_ids] at hin
    obtain ⟨g, hg, heq⟩ := List.mem_map.mp hin
    exact (happart c hc).1 g hg heq.symm
  refine Upper.cons hup hflat (fun g hg => ?_) h.upper.ids.of_append_left (fun c hc hin => ?_) (fun g hg => ?_) fun g hg => ?_
  · refine (hinner g hg).repaired hrep (by rw [item_ids]; exact List.mem_map_of_mem hg) fun c hc => ?_
    have hmem : c ∈ items.map Prod.snd := by
      obtain ⟨item, hitem, rfl⟩ := List.mem_map.mp hc
      rw [← hflat]
      exact List.mem_map_of_mem (List.mem_flatMap.mpr ⟨g, hg, hitem⟩)
    exact ⟨(happart c hmem).2.2.2, hlower c hmem, by rw [hinnerIds]; exact (happart c hmem).2.1⟩
  · rcases List.mem_append.mp hin with hin | hin
    · obtain ⟨g, hg, heq⟩ := List.mem_map.mp hin
      exact (happart c hc).1 g hg heq.symm
    · refine (hrep.fresh c hin).elim ?_ (hthere c (happart c hc).2.2.1)
      rw [hinnerIds]
      exact (happart c hc).2.1
  · exact h.upper.valid g.id (by rw [innerIds_cons]; exact List.mem_append_left _ (hids g hg))
  · have hmin := minKeys_le h.upper.accepted levels'
    have hg : g.rest.length ≤ tree.config.internalMaxKeys ∧ tree.config.internalMaxKeys / 2 ≤ g.rest.length := by
      rcases mem_middle.mp hg with rfl | hin
      · exact hsize
      · exact h.sizes hin
    rw [hrep.config]
    exact ⟨hg.1, by omega⟩

theorem inner_write {c p : PageId} {g' : Inner} {t : Store}
    (hc : c ∈ innerIds ((pre ++ a :: b :: post) :: (before ++ q :: after) :: rest)) (hraw : ∀ page, t c ≠ some (.raw page)) :
    Repaired tree tree t (t.write c (Inner.node g' p)) (items.map Prod.snd)
      ((pre ++ a :: b :: post) :: (before ++ q :: after) :: rest) ((pre ++ a :: b :: post) :: (before ++ q :: after) :: rest) :=
  repaired_write (.inl hc) (fun hin => (h.upper.items_apart hin).1 hc) hraw

/-- The writes that move an item over. -/
theorem does_shift (a' b' : Inner) {pa pb pq p moved : PageId} (ha : a'.id = a.id) (hhead : a'.head = a.head) (hb : b'.id = b.id)
    (hitems : a'.items ++ b'.items = a.items ++ b.items)
    (hsize : ∀ g ∈ [a', b'], g.rest.length ≤ tree.config.internalMaxKeys ∧ tree.config.internalMaxKeys / 2 ≤ g.rest.length)
    (hna : s a.id = some (.node (Inner.node a pa))) (hnb : s b.id = some (.node (Inner.node b pb)))
    (hnq : s q.id = some (.node (Inner.node q pq))) (hmoved : moved ∈ items.map Prod.snd)
    (hkids : ∀ g ∈ pre ++ a' :: b' :: post, ∀ c ∈ g.children, HasParent (s.reparent p [moved]) c g.id) :
    TreeOp.Mends (do
      BPlusTree.setParent moved p
      BPlusTree.writeNode a.id (Inner.node a' pa)
      BPlusTree.writeNode b.id (Inner.node b' pb)
      BPlusTree.writeNode q.id (Inner.node ⟨q.id, q.head, q.rest.set ps.length (b'.head.1, b.id)⟩ pq)) tree s
      ((pre ++ a :: b :: post) :: (before ++ q :: after) :: rest) items := by
  obtain ⟨q', hq'⟩ : ∃ q' : Inner, q' = ⟨q.id, q.head, q.rest.set ps.length (b'.head.1, b.id)⟩ := ⟨_, rfl⟩
  obtain ⟨hab, haq, hbq⟩ := h.distinct
  obtain ⟨⟨hamem, hbmem⟩, hqmem⟩ := @mem_levels rest pre post before after a b q
  have hbase := h.reparent_levels p [moved] (by simpa using hmoved)
  obtain ⟨t₀, ht₀⟩ : ∃ t, t = s.reparent p [moved] := ⟨_, rfl⟩
  rw [← ht₀] at hbase
  have ha₀ : t₀ a.id = some (.node (Inner.node a pa)) := by rw [hbase _ (List.mem_cons_of_mem _ hamem), hna]
  have hb₀ : t₀ b.id = some (.node (Inner.node b pb)) := by rw [hbase _ (List.mem_cons_of_mem _ hbmem), hnb]
  have hq₀ : t₀ q.id = some (.node (Inner.node q pq)) := by rw [hbase _ (List.mem_cons_of_mem _ hqmem), hnq]
  obtain ⟨parent, node, hnode, -⟩ := h.upper.tower.items_node hmoved
  have hqsize := (h.upper.up.filled.1 q (by simp)).1
  rw [← hq']
  apply does_bind
  refine does_setParent h.upper.accepted hnode ?_
  rw [← ht₀]
  apply does_bind
  refine does_writeInner a' pa h.upper.accepted (by simp [ha₀]) rfl (hsize a' (by simp)).1 ?_
  apply does_bind
  refine does_writeInner b' pb h.upper.accepted (by rw [Store.write_of_ne hab.symm]; simp [hb₀]) rfl (hsize b' (by simp)).1 ?_
  refine does_writeInner q' pq h.upper.accepted ?_ rfl (by simpa [hq'] using hqsize)
    ⟨(pre ++ a' :: b' :: post) :: (before ++ q' :: after) :: rest, ?_, ?_⟩
  · rw [Store.write_of_ne hbq.symm, Store.write_of_ne haq.symm]
    simp [hq₀]
  · rw [hq']
    refine h.shift ha hhead hb hitems hsize ⟨fun c hc hca hcb hcq => ?_, ⟨pa, hna, ?_⟩, ⟨pq, hnq, ?_⟩, fun g hg c hc => ?_⟩
      ⟨pb, hnb, ?_⟩
    · rw [Store.write_of_ne hcq, Store.write_of_ne hcb, Store.write_of_ne hca, hbase c hc]
    · rw [Store.write_of_ne haq, Store.write_of_ne hab, Store.write_self]
    · rw [Store.write_self]
    · obtain ⟨node, hnode, hparent⟩ := hkids g hg c hc
      have hmem : c ∈ items.map Prod.snd := by
        obtain ⟨item, hitem, rfl⟩ := List.mem_map.mp hc
        rw [← shift_items h.upper.tower.1 hitems]
        exact List.mem_map_of_mem (List.mem_flatMap.mpr ⟨g, hg, hitem⟩)
      obtain ⟨hca, hcb, hcq⟩ := h.item_ne hmem
      exact ⟨node, by rw [Store.write_of_ne hcq, Store.write_of_ne hcb, Store.write_of_ne hca, ht₀]; exact hnode, hparent⟩
    · rw [Store.write_of_ne hbq, Store.write_self]
  · have hreparent : Repaired tree tree s t₀ (items.map Prod.snd) ((pre ++ a :: b :: post) :: (before ++ q :: after) :: rest)
        ((pre ++ a :: b :: post) :: (before ++ q :: after) :: rest) := by
      rw [ht₀]
      exact repaired_reparent (by simpa using hmoved)
    refine Repaired.regroup (((hreparent.trans (h.inner_write hamem ?_)).trans (h.inner_write hbmem ?_)).trans
      (h.inner_write hqmem ?_)) fun c hc => .inl ?_
    · simp [ha₀]
    · rw [Store.write_of_ne hab.symm]
      simp [hb₀]
    · rw [Store.write_of_ne hbq.symm, Store.write_of_ne haq.symm]
      simp [hq₀]
    · simpa [innerIds_cons, ha, hb, hq'] using hc

variable (hrec : ∀ {t : Store} {items' : List Item},
  Upper tree t (some q.id) ((before ++ ⟨q.id, q.head, q.rest.eraseIdx ps.length⟩ :: after) :: rest) items' →
  (climb q.id).Mends tree t ((before ++ ⟨q.id, q.head, q.rest.eraseIdx ps.length⟩ :: after) :: rest) items')

include hrec in
/-- The writes that merge the two, and the repair of the parent. -/
theorem does_merge (a' : Inner) {pa pq : PageId} (ha : a'.id = a.id) (hhead : a'.head = a.head)
    (hitems : a'.items = a.items ++ b.items)
    (hsize : a'.rest.length ≤ tree.config.internalMaxKeys ∧ tree.config.internalMaxKeys / 2 ≤ a'.rest.length)
    (hna : s a.id = some (.node (Inner.node a pa))) (hnq : s q.id = some (.node (Inner.node q pq))) :
    TreeOp.Mends (do
      BPlusTree.setParents b.children a.id
      let keys ← eraseAt (Inner.node q pq).keys ps.length
      let children ← eraseAt (Inner.node q pq).children (ps.length + 1)
      BPlusTree.writeNode a.id (Inner.node a' pa)
      BPlusTree.writeNode q.id { Inner.node q pq with keys := keys, children := children }
      climb q.id) tree s ((pre ++ a :: b :: post) :: (before ++ q :: after) :: rest) items := by
  obtain ⟨q', hq'⟩ : ∃ q' : Inner, q' = ⟨q.id, q.head, q.rest.eraseIdx ps.length⟩ := ⟨_, rfl⟩
  obtain ⟨hab, haq, hbq⟩ := h.distinct
  obtain ⟨⟨hamem, hbmem⟩, hqmem⟩ := @mem_levels rest pre post before after a b q
  have hkid : ∀ g ∈ pre ++ a :: b :: post, ∀ c ∈ g.children, c ∈ items.map Prod.snd := fun g hg c hc => h.upper.child_mem hg hc
  have hbase := h.reparent_levels a.id b.children (hkid b (by simp))
  obtain ⟨t₀, ht₀⟩ : ∃ t, t = s.reparent a.id b.children := ⟨_, rfl⟩
  rw [← ht₀] at hbase
  have ha₀ : t₀ a.id = some (.node (Inner.node a pa)) := by rw [hbase _ (List.mem_cons_of_mem _ hamem), hna]
  have hq₀ : t₀ q.id = some (.node (Inner.node q pq)) := by rw [hbase _ (List.mem_cons_of_mem _ hqmem), hnq]
  obtain ⟨hkeysCount, hchildrenCount, hqnode⟩ := h.siblings.erase_node pq
  rw [← hq'] at hqnode
  have hqsize := (h.upper.up.filled.1 q (by simp)).1
  apply does_bind
  refine does_setParents h.upper.accepted (fun c hc => ?_) ?_
  · obtain ⟨parent, node, hnode, -⟩ := h.upper.tower.items_node (hkid b (by simp) c hc)
    exact ⟨node, hnode⟩
  rw [← ht₀]
  apply does_bind
  refine does_eraseAt hkeysCount ?_
  apply does_bind
  refine does_eraseAt hchildrenCount ?_
  rw [hqnode]
  apply does_bind
  refine does_writeInner a' pa h.upper.accepted (by simp [ha₀]) rfl hsize.1 ?_
  apply does_bind
  refine does_writeInner q' pq h.upper.accepted (by rw [Store.write_of_ne haq.symm]; simp [hq₀]) rfl ?_ ?_
  · rw [hq']
    exact (List.length_eraseIdx_le _ _).trans hqsize
  obtain ⟨t, ht⟩ : ∃ t, t = (t₀.write a.id (Inner.node a' pa)).write q.id (Inner.node q' pq) := ⟨_, rfl⟩
  rw [← ht]
  have hchildren : a'.children = a.children ++ b.children := by
    rw [Group.children, hitems, List.map_append]
    rfl
  have hwritten : PairWritten tree s t ((pre ++ a :: b :: post) :: (before ++ q :: after) :: rest) (pre ++ a' :: post) a a' b q q' := by
    refine ⟨fun c hc hca _ hcq => ?_, ⟨pa, hna, ?_⟩, ⟨pq, hnq, ?_⟩, fun g hg c hc => ?_⟩
    · rw [ht, Store.write_of_ne hcq, Store.write_of_ne hca, hbase c hc]
    · rw [ht, Store.write_of_ne haq, Store.write_self]
    · rw [ht, Store.write_self]
    · -- Only the children of the second node have another parent now.
      have hold : ∀ g ∈ pre ++ a :: b :: post, ∀ c ∈ g.children, t c = t₀ c := by
        intro g hg c hc
        obtain ⟨hca, -, hcq⟩ := h.item_ne (hkid g hg c hc)
        rw [ht, Store.write_of_ne hcq, Store.write_of_ne hca]
      have hstay : ∀ g ∈ pre ++ a :: b :: post, g.id ≠ b.id → ∀ c ∈ g.children, HasParent t c g.id := by
        intro g hg hgb c hc
        have hparent := (h.upper.tower.2.1 g hg).children c hc
        have hnotB : c ∉ b.children := fun hin =>
          hgb (hparent.unique ((h.upper.tower.2.1 b (by simp)).children c hin))
        obtain ⟨node, hnode, hp⟩ := hparent
        exact ⟨node, by rw [hold g hg c hc, ht₀, Store.reparent_of_not_mem hnotB]; exact hnode, hp⟩
      rcases mem_middle.mp hg with rfl | hin
      · rw [ha]
        rw [hchildren] at hc
        rcases List.mem_append.mp hc with hc | hc
        · exact hstay a (by simp) hab c hc
        · obtain ⟨node, hnode, -⟩ := (h.upper.tower.2.1 b (by simp)).children c hc
          refine ⟨{ node with parent := a.id }, ?_, rfl⟩
          rw [hold b (by simp) c hc, ht₀, Store.reparent_of_mem hc, hnode]
          rfl
      · exact hstay g (mem_middle_pair.mpr (.inr (.inr hin))) (h.level_ne hin).2 c hc
  obtain ⟨hup, hinner⟩ := h.merge ha hhead (hq' ▸ hwritten) (by
    rw [ht, Store.write_of_ne hbq, Store.write_of_ne hab.symm, hbase _ (List.mem_cons_of_mem _ hbmem)])
  refine (hrec hup).mono ?_
  rintro _ tree' s' ⟨levels', hupper, hrep⟩
  have hlocal : Repaired tree tree s t (items.map Prod.snd) ((pre ++ a :: b :: post) :: (before ++ q :: after) :: rest)
      ((pre ++ a :: b :: post) :: (before ++ q :: after) :: rest) := by
    have hreparent : Repaired tree tree s t₀ (items.map Prod.snd) ((pre ++ a :: b :: post) :: (before ++ q :: after) :: rest)
        ((pre ++ a :: b :: post) :: (before ++ q :: after) :: rest) := by
      rw [ht₀]
      exact repaired_reparent (hkid b (by simp))
    rw [ht]
    refine (hreparent.trans (h.inner_write hamem (by simp [ha₀]))).trans (h.inner_write hqmem ?_)
    rw [Store.write_of_ne haq.symm]
    simp [hq₀]
  rw [← hq'] at hrep
  have hids : ∀ c ∈ ((pre ++ a' :: post).map Group.item).map Prod.snd,
      c ∈ innerIds ((pre ++ a :: b :: post) :: (before ++ q :: after) :: rest) := by
    intro c hc
    rw [item_ids] at hc
    rw [innerIds_cons]
    refine List.mem_append_left _ ?_
    simp only [List.map_append, List.map_cons, List.mem_append, List.mem_cons, ha] at hc ⊢
    tauto
  refine ⟨(pre ++ a' :: post) :: levels', h.merged ha (by rw [hq']) hitems hsize hlocal.there hinner hrep hupper, ?_⟩
  refine hlocal.climb hrep (fun c hc => .inl (hids c hc)) (fun c hc => mem_innerIds_above ?_) (fun c hc => h.upper.items_apart hc)
    fun c hc => ?_
  · simpa [innerIds_cons, hq'] using hc
  · rw [innerIds_cons, List.mem_append] at hc
    rw [item_ids]
    exact hc.imp id .inl

theorem children_nodup (hg : g ∈ pre ++ a :: b :: post) : g.children.Nodup := by
  have hnodup := h.upper.ids.of_append_left
  rw [← h.upper.tower.1] at hnodup
  obtain ⟨first, second, hsplit⟩ := List.append_of_mem hg
  rw [hsplit, List.flatMap_append, List.flatMap_cons, List.map_append, List.map_append] at hnodup
  exact hnodup.of_append_right.of_append_left

theorem parent_reads (pq : PageId) : (Inner.node q pq).children[ps.length]? = some a.id ∧
    (Inner.node q pq).children[ps.length + 1]? = some b.id ∧ (Inner.node q pq).keys[ps.length]? = some b.head.1 ∧
    ps.length < (Inner.node q pq).keys.length := h.siblings.reads pq

/-- Only the moved child has another parent. -/
theorem kids_shift {moved p : PageId} (hmoved : moved ∈ a.children ∨ moved ∈ b.children) (ha : a'.id = a.id) (hb : b'.id = b.id)
    (hfirst : ∀ c ∈ a'.children, c = moved ∧ p = a.id ∨ c ≠ moved ∧ c ∈ a.children)
    (hsecond : ∀ c ∈ b'.children, c = moved ∧ p = b.id ∨ c ≠ moved ∧ c ∈ b.children) :
    ∀ g ∈ pre ++ a' :: b' :: post, ∀ c ∈ g.children, HasParent (s.reparent p [moved]) c g.id := by
  have hkids : ∀ g ∈ pre ++ a :: b :: post, ∀ c ∈ g.children, HasParent s c g.id :=
    fun g hg => (h.upper.tower.2.1 g hg).children
  have hparent : ∃ parent, HasParent s moved parent ∧ (parent = a.id ∨ parent = b.id) := by
    rcases hmoved with hin | hin
    · exact ⟨a.id, hkids a (by simp) _ hin, .inl rfl⟩
    · exact ⟨b.id, hkids b (by simp) _ hin, .inr rfl⟩
  obtain ⟨parent, hparent, hab⟩ := hparent
  intro g hg c hc
  rcases mem_middle_pair.mp hg with rfl | rfl | hin
  · rw [ha]
    rcases hfirst c hc with ⟨rfl, rfl⟩ | ⟨hne, hold⟩
    · exact hparent.reparent_self
    · exact (hkids a (by simp) c hold).reparent_of_ne hne
  · rw [hb]
    rcases hsecond c hc with ⟨rfl, rfl⟩ | ⟨hne, hold⟩
    · exact hparent.reparent_self
    · exact (hkids b (by simp) c hold).reparent_of_ne hne
  · have hold : HasParent s c g.id := hkids g (mem_middle_pair.mpr (.inr (.inr hin))) c hc
    refine hold.reparent_of_ne ?_
    rintro rfl
    have hsame := hold.unique hparent
    have hne := h.level_ne hin
    rcases hab with rfl | rfl
    · exact hne.1 hsame
    · exact hne.2 hsame

theorem child_ne_of_groups {c d : PageId} (hc : c ∈ a.children) (hd : d ∈ b.children) : c ≠ d := by
  rintro rfl
  have hkids := h.upper.tower.2.1
  exact h.ids_ne (((hkids a (by simp)).children c hc).unique ((hkids b (by simp)).children c hd))

theorem child_mem_items (hg : g ∈ pre ++ a :: b :: post) {c : PageId} (hc : c ∈ g.children) : c ∈ items.map Prod.snd := by
  rw [← h.upper.tower.1]
  obtain ⟨item, hitem, rfl⟩ := List.mem_map.mp hc
  exact List.mem_map_of_mem (List.mem_flatMap.mpr ⟨g, hg, hitem⟩)

include hrec in
/-- The node takes an item from its left neighbour or goes into it. -/
theorem does_fromLeft {pa pq : PageId} (hna : s a.id = some (.node (Inner.node a pa)))
    (hnb : s b.id = some (.node (Inner.node b q.id))) (hnq : s q.id = some (.node (Inner.node q pq)))
    (hamin : tree.config.internalMaxKeys / 2 ≤ a.rest.length) (hbmin : b.rest.length + 1 = tree.config.internalMaxKeys / 2) :
    (BPlusTree.rebalanceFromLeft climb b.id (Inner.node b q.id) (Inner.node q pq) (ps.length + 1)
      (tree.config.internalMaxKeys / 2)).Mends tree s ((pre ++ a :: b :: post) :: (before ++ q :: after) :: rest) items := by
  obtain ⟨hleft, -, hseparator, hcount⟩ := h.parent_reads pq
  have hamax := (h.upper.filled.1 a (by simp)).1
  rw [BPlusTree.rebalanceFromLeft, Nat.add_sub_cancel]
  apply does_bind
  refine does_getAt hleft ?_
  apply does_bind
  refine does_readNode hna fun _ => ?_
  apply does_bind
  refine does_getAt hseparator ?_
  have hlength : (Inner.node a pa).keys.length = a.rest.length := by simp [Inner.node, Group.keys]
  by_cases hmany : (Inner.node a pa).keys.length > tree.config.internalMaxKeys / 2
  · rw [if_pos hmany]
    rw [hlength] at hmany
    obtain ⟨arest, last, harest⟩ : ∃ arest last, a.rest = arest ++ [last] := by
      rcases List.eq_nil_or_concat a.rest with hnil | ⟨arest, last, hconcat⟩
      · rw [hnil] at hmany
        simp at hmany
      · exact ⟨arest, last, by rw [hconcat, List.concat_eq_append]⟩
    have harestLength : a.rest.length = arest.length + 1 := by simp [harest]
    have hchildren : (Inner.node a pa).children = (a.head :: arest).map Prod.snd ++ [last.2] := by
      simp [Inner.node, Group.children, Group.items, harest]
    have hkeys : (Inner.node a pa).keys = arest.map Prod.fst ++ [last.1] := by simp [Inner.node, Group.keys, harest]
    have hnodup := h.children_nodup (g := a) (by simp)
    have hmoved : last.2 ∈ a.children := by simp [Group.children, Group.items, harest]
    apply does_bind
    refine does_back (a := last.2) (by rw [hchildren, List.getLast?_concat]) ?_
    apply does_bind
    refine does_back (a := last.1) (by rw [hkeys, List.getLast?_concat]) ?_
    apply does_bind
    refine does_setAt hcount ?_
    have hnodeA : { Inner.node a pa with
        keys := (Inner.node a pa).keys.dropLast
        children := (Inner.node a pa).children.dropLast } = Inner.node ⟨a.id, a.head, arest⟩ pa := by
      rw [hchildren, hkeys, List.dropLast_concat, List.dropLast_concat]
      rfl
    rw [hnodeA, h.siblings.set_node]
    refine h.does_shift ⟨a.id, a.head, arest⟩ ⟨b.id, last, b.head :: b.rest⟩ (p := b.id) rfl rfl rfl
      (by simp [Group.items, harest]) ?_ hna hnb hnq (h.child_mem_items (by simp) hmoved) ?_
    · simp only [List.mem_cons, List.not_mem_nil, or_false, forall_eq_or_imp, forall_eq, List.length_cons]
      omega
    · refine h.kids_shift (.inl hmoved) rfl rfl (fun c hc => .inr ⟨?_, ?_⟩) fun c hc => ?_
      · rintro rfl
        have hsplit : a.children = Group.children ⟨a.id, a.head, arest⟩ ++ [last.2] := hchildren
        rw [hsplit] at hnodup
        exact (List.nodup_append.mp hnodup).2.2 _ hc _ (List.mem_singleton_self _) rfl
      · have hsplit : a.children = Group.children ⟨a.id, a.head, arest⟩ ++ [last.2] := hchildren
        rw [hsplit]
        exact List.mem_append_left _ hc
      · rcases List.mem_cons.mp hc with rfl | hold
        · exact .inl ⟨rfl, rfl⟩
        · exact .inr ⟨(h.child_ne_of_groups hmoved hold).symm, hold⟩
  · rw [if_neg hmany]
    rw [hlength] at hmany
    have hnodeA : { Inner.node a pa with
        keys := (Inner.node a pa).keys ++ b.head.1 :: (Inner.node b q.id).keys
        children := (Inner.node a pa).children ++ (Inner.node b q.id).children } =
          Inner.node ⟨a.id, a.head, a.rest ++ b.head :: b.rest⟩ pa := by
      simp [Inner.node, Group.keys, Group.children, Group.items]
    rw [hnodeA]
    refine h.does_merge hrec ⟨a.id, a.head, a.rest ++ b.head :: b.rest⟩ rfl rfl (by simp [Group.items]) ?_ hna hnq
    simp only [List.length_append, List.length_cons]
    omega

include hrec in
/-- The node takes an item from its right neighbour or takes all of it. -/
theorem does_fromRight {pb pq : PageId} (hna : s a.id = some (.node (Inner.node a q.id)))
    (hnb : s b.id = some (.node (Inner.node b pb))) (hnq : s q.id = some (.node (Inner.node q pq)))
    (hbmin : tree.config.internalMaxKeys / 2 ≤ b.rest.length) (hamin : a.rest.length + 1 = tree.config.internalMaxKeys / 2) :
    (BPlusTree.rebalanceFromRight climb a.id (Inner.node a q.id) (Inner.node q pq) ps.length
      (tree.config.internalMaxKeys / 2)).Mends tree s ((pre ++ a :: b :: post) :: (before ++ q :: after) :: rest) items := by
  obtain ⟨-, hright, hseparator, hcount⟩ := h.parent_reads pq
  have hbmax := (h.upper.filled.1 b (by simp)).1
  rw [BPlusTree.rebalanceFromRight]
  apply does_bind
  refine does_getAt hright ?_
  apply does_bind
  refine does_readNode hnb fun _ => ?_
  apply does_bind
  refine does_getAt hseparator ?_
  have hlength : (Inner.node b pb).keys.length = b.rest.length := by simp [Inner.node, Group.keys]
  by_cases hmany : (Inner.node b pb).keys.length > tree.config.internalMaxKeys / 2
  · rw [if_pos hmany]
    rw [hlength] at hmany
    obtain ⟨first, brest, hbrest⟩ : ∃ first brest, b.rest = first :: brest :=
      List.exists_cons_of_length_pos (Nat.zero_lt_of_lt hmany)
    have hbrestLength : b.rest.length = brest.length + 1 := by simp [hbrest]
    have hchildren : (Inner.node b pb).children = b.head.2 :: (first :: brest).map Prod.snd := by
      simp [Inner.node, Group.children, Group.items, hbrest]
    have hkeys : (Inner.node b pb).keys = first.1 :: brest.map Prod.fst := by simp [Inner.node, Group.keys, hbrest]
    have hnodup := h.children_nodup (g := b) (by simp)
    have hmoved : b.head.2 ∈ b.children := by simp [Group.children, Group.items]
    apply does_bind
    refine does_front (a := b.head.2) (by simp [hchildren]) ?_
    apply does_bind
    refine does_front (a := first.1) (by simp [hkeys]) ?_
    apply does_bind
    refine does_setAt hcount ?_
    have hnodeA : { Inner.node a q.id with
        keys := (Inner.node a q.id).keys ++ [b.head.1]
        children := (Inner.node a q.id).children ++ [b.head.2] } = Inner.node ⟨a.id, a.head, a.rest ++ [b.head]⟩ q.id := by
      simp [Inner.node, Group.keys, Group.children, Group.items]
    have hnodeB : { Inner.node b pb with
        keys := (Inner.node b pb).keys.tail
        children := (Inner.node b pb).children.tail } = Inner.node ⟨b.id, first, brest⟩ pb := by
      rw [hchildren, hkeys]
      rfl
    rw [hnodeA, hnodeB, h.siblings.set_node]
    refine h.does_shift ⟨a.id, a.head, a.rest ++ [b.head]⟩ ⟨b.id, first, brest⟩ (p := a.id) rfl rfl rfl
      (by simp [Group.items, hbrest]) ?_ hna hnb hnq (h.child_mem_items (by simp) hmoved) ?_
    · simp only [List.mem_cons, List.not_mem_nil, or_false, forall_eq_or_imp, forall_eq, List.length_append,
        List.length_singleton]
      omega
    · have hsplit : b.children = b.head.2 :: Group.children ⟨b.id, first, brest⟩ := hchildren
      refine h.kids_shift (.inr hmoved) rfl rfl (fun c hc => ?_) fun c hc => .inr ⟨?_, ?_⟩
      · have hc : c ∈ a.children ++ [b.head.2] := by simpa [Group.children, Group.items] using hc
        rcases List.mem_append.mp hc with hold | hnew
        · exact .inr ⟨h.child_ne_of_groups hold hmoved, hold⟩
        · exact .inl ⟨List.mem_singleton.mp hnew, rfl⟩
      · rintro rfl
        rw [hsplit] at hnodup
        exact (List.nodup_cons.mp hnodup).1 hc
      · rw [hsplit]
        exact List.mem_cons_of_mem _ hc
  · rw [if_neg hmany]
    rw [hlength] at hmany
    have hnodeA : { Inner.node a q.id with
        keys := (Inner.node a q.id).keys ++ b.head.1 :: (Inner.node b pb).keys
        children := (Inner.node a q.id).children ++ (Inner.node b pb).children } =
          Inner.node ⟨a.id, a.head, a.rest ++ b.head :: b.rest⟩ q.id := by
      simp [Inner.node, Group.keys, Group.children, Group.items]
    rw [hnodeA]
    refine h.does_merge hrec ⟨a.id, a.head, a.rest ++ b.head :: b.rest⟩ rfl rfl (by simp [Group.items]) ?_ hna hnq
    simp only [List.length_append, List.length_cons]
    omega

end Pair

end Pair

/-! ## `rebalance_internal` -/

theorem Store.write_eq_self {id : PageId} {node : Node} (h : s id = some (.node node)) : s.write id node = s := by
  funext other
  by_cases heq : other = id
  · subst heq
    rw [Store.write_self, h]
  · rw [Store.write_of_ne heq]

/-- A root without keys gives way to its only child. -/
theorem Upper.shrink {g : Inner} (h : Upper tree s hole [[g]] items) (hrest : g.rest = []) :
    Upper { tree with root := g.head.2 } ((s.reparent .invalid [g.head.2]).writeHeader tree.metadata g.head.2 tree.config)
      none [] items := by
  have hitems : [g.head] = items := by
    rw [← h.tower.1]
    simp [Group.items, hrest]
  have hchild : g.head.2 ∈ g.children := by simp [Group.children, Group.items]
  have hparent := ((h.tower.2.1 g (by simp)).children _ hchild).reparent_self (p := .invalid)
  refine ⟨h.accepted, Store.writeHeader_self _ _ _ _, ⟨⟨g.head.1, hitems.symm⟩, ?_⟩, ?_, ?_, trivial⟩
  · obtain ⟨node, hnode, hinvalid⟩ := hparent
    have hne : g.head.2 ≠ tree.metadata := h.items_ne_metadata (by simp [← hitems])
    exact ⟨node, by rw [Store.writeHeader_of_ne hne]; exact hnode, hinvalid⟩
  · simp [← hitems, innerIds]
  · simp [innerIds]

/-- An item has a neighbour on its left under the same parent, or is the first there and has one on its right. -/
theorem Upper.siblings {up : List Inner} {x : Item} (h : Upper tree s none (up :: above) (xs ++ x :: ys)) :
    ∃ first q last ps qs, up = first ++ q :: last ∧ InnerAt s q ∧ x.2 ∈ q.children ∧
      ((∃ xs' l, xs = xs' ++ [l] ∧ q.children.idxOf x.2 = ps.length + 1 ∧ Siblings up xs' ys l x first q last ps qs) ∨
        ∃ r ys', ys = r :: ys' ∧ q.children.idxOf x.2 = 0 ∧ ps = [] ∧ Siblings up xs ys' x r first q last ps qs) := by
  obtain ⟨first, q, last, ps, qs, rfl, hitems, rfl, rfl, hinner, hindex, -⟩ := h.located
  have hmem : x.2 ∈ q.children := by
    rw [Group.children, hitems]
    simp
  refine ⟨first, q, last, ?_⟩
  rcases List.eq_nil_or_concat ps with rfl | ⟨ps, l, rfl⟩
  · -- The parent has a key, so the first child has a neighbour.
    have hsize := (h.filled.1 q (by simp)).2
    have hinternal := h.accepted.internal
    have hpos : 1 ≤ minKeys tree.config above := by
      cases above with
      | nil => exact le_rfl
      | cons up above => simp only [minKeys]; omega
    obtain ⟨-, hrest⟩ := List.cons.inj hitems
    cases qs with
    | nil =>
      rw [hrest] at hsize
      simp at hsize
      omega
    | cons r qs => exact ⟨[], qs, rfl, hinner, hmem, .inr ⟨r, _, rfl, hindex, rfl, rfl, hitems, rfl, rfl⟩⟩
  · rw [List.concat_eq_append] at hitems hindex ⊢
    refine ⟨ps, qs, rfl, hinner, hmem, .inl ⟨_, l, (List.append_assoc _ _ _).symm, ?_, rfl, ?_, rfl, rfl⟩⟩
    · rw [hindex, List.length_append, List.length_singleton]
    · rw [hitems, List.append_assoc]
      rfl

/-- A node of the level below the parent's, with a neighbour. -/
theorem Upper.neighbour {before after : List Inner} {g : Inner} {up : List Inner} {rest : List (List Inner)}
    (h : Upper tree s (some g.id) ((before ++ g :: after) :: up :: rest) items) :
    ∃ first q last ps qs, up = first ++ q :: last ∧ InnerAt s q ∧ g.id ∈ q.children ∧
      ((∃ pre l, before = pre ++ [l] ∧ q.children.idxOf g.id = ps.length + 1 ∧
          Pair tree s (some g.id) rest items pre l g after first q last ps qs) ∨
        ∃ r post, after = r :: post ∧ q.children.idxOf g.id = 0 ∧ ps = [] ∧
          Pair tree s (some g.id) rest items before g r post first q last ps qs) := by
  have hfull := h.up_full
  have hmin : ∀ other ∈ before ++ after, tree.config.internalMaxKeys / 2 ≤ other.rest.length := by
    intro other hother
    have hne : some g.id ≠ some other.id := fun heq => h.id_ne hother (Option.some.inj heq).symm
    have hold := h.filled.1 other (mem_middle.mpr (.inr hother))
    rw [if_neg hne] at hold
    exact hold.2
  have hsplit := hfull
  rw [List.map_append, List.map_cons] at hsplit
  obtain ⟨first, q, last, ps, qs, rfl, hinner, hmem, hcases⟩ := hsplit.siblings
  refine ⟨first, q, last, ps, qs, rfl, hinner, hmem, ?_⟩
  rcases hcases with ⟨xs, x, hbefore, hindex, hsib⟩ | ⟨y, ys, hafter, hindex, rfl, hsib⟩
  · obtain ⟨pre, tail, rfl, rfl, htail⟩ := List.map_eq_append_iff.mp hbefore
    obtain ⟨l, rfl, rfl⟩ := List.map_eq_singleton_iff.mp htail
    have hlevel : pre ++ [l] ++ g :: after = pre ++ l :: g :: after := by simp
    rw [hlevel] at h hfull
    refine .inl ⟨pre, l, rfl, hindex, h, hfull, hsib, fun other hother => hmin other ?_⟩
    simp only [List.mem_append, List.mem_singleton] at hother ⊢
    tauto
  · obtain ⟨r, post, rfl, rfl, rfl⟩ := List.map_eq_cons_iff.mp hafter
    refine .inr ⟨r, post, rfl, hindex, rfl, h, hfull, hsib, fun other hother => hmin other ?_⟩
    simp only [List.mem_append, List.mem_cons] at hother ⊢
    tauto

theorem does_rebalanceInternal {before after : List Inner} {g : Inner} {fuel : Nat}
    (h : Upper tree s (some g.id) ((before ++ g :: after) :: above) items) (hfuel : above.length < fuel) :
    (BPlusTree.rebalanceInternal fuel g.id).Mends tree s ((before ++ g :: after) :: above) items := by
  induction above generalizing s items before g after fuel with
  | nil =>
    obtain ⟨fuel, rfl⟩ := Nat.exists_eq_add_one_of_ne_zero (Nat.ne_of_gt hfuel)
    obtain ⟨⟨key, hroot⟩, -⟩ := h.up.tower
    obtain ⟨rfl, hitem, rfl⟩ : before = [] ∧ g.item = (key, tree.root) ∧ after = [] := by
      cases before with
      | nil => simpa using hroot
      | cons b before => simp at hroot
    have hid : g.id = tree.root := congrArg Prod.snd hitem
    rw [List.nil_append] at h ⊢
    have hinner := h.tower.2.1 g (by simp)
    obtain ⟨parent, hnode⟩ := hinner.node
    rw [BPlusTree.rebalanceInternal]
    apply does_bind
    refine does_readNode hnode fun _ => ?_
    apply does_bind
    apply does_get
    rw [if_pos hid]
    by_cases hrest : g.rest = []
    · rw [if_pos (by simp [Inner.node, Group.keys, hrest])]
      have hchild : g.head.2 ∈ g.children := by simp [Group.children, Group.items]
      have hitem := h.child_mem (g := g) (by simp) hchild
      obtain ⟨hapart, hthere, hmeta⟩ := h.items_apart hitem
      obtain ⟨child, hcell, -⟩ := hinner.children _ hchild
      have hheader : s.reparent .invalid [g.head.2] tree.metadata = some (.header tree.root tree.config) := by
        rw [Store.reparent_of_not_mem (by simpa using hmeta.symm)]
        exact h.header
      apply does_bind
      refine does_front (a := g.head.2) rfl ?_
      apply does_bind
      refine does_setParent h.accepted hcell ?_
      refine does_setRoot h.accepted (by simp [hheader]) ?_
      refine ⟨[], h.shrink hrest, ?_⟩
      refine ((repaired_reparent ?_).trans (repaired_setRoot hheader fun hin => h.items_ne_metadata hin rfl)).regroup ?_
      · simpa using hitem
      · simp [innerIds]
    · rw [if_neg (by simpa [Inner.node, Group.keys] using hrest)]
      refine does_writeInner g parent h.accepted hinner.ne_none rfl (h.filled.1 g (by simp)).1 ?_
      rw [Store.write_eq_self hnode]
      exact ⟨_, h.fill_node [] (List.length_pos_iff.mpr hrest), repaired_refl _ _ _ _⟩
  | cons up rest ih =>
    obtain ⟨fuel, rfl⟩ := Nat.exists_eq_add_one_of_ne_zero (Nat.ne_of_gt (Nat.zero_lt_of_lt hfuel))
    have hinner := h.tower.2.1 g (by simp)
    have hsize := h.filled.1 g (by simp)
    rw [if_pos rfl, minKeys] at hsize
    obtain ⟨parent, hnode⟩ := hinner.node
    have hlength : (Inner.node g parent).keys.length = g.rest.length := by simp [Inner.node, Group.keys]
    rw [BPlusTree.rebalanceInternal]
    apply does_bind
    refine does_readNode hnode fun _ => ?_
    apply does_bind
    apply does_get
    rw [if_neg (h.ne_root (by simp))]
    dsimp only
    by_cases hmin : (Inner.node g parent).keys.length ≥ tree.config.internalMaxKeys / 2
    · rw [if_pos hmin]
      refine does_writeInner g parent h.accepted hinner.ne_none rfl hsize.1 ?_
      rw [Store.write_eq_self hnode]
      exact ⟨_, h.fill_node _ (hlength ▸ hmin), repaired_refl _ _ _ _⟩
    · rw [if_neg hmin]
      rw [hlength] at hmin
      obtain ⟨first, q, last, ps, qs, rfl, hq, hmem, hcases⟩ := h.neighbour
      obtain ⟨pq, hnq⟩ := hq.node
      obtain rfl : parent = q.id := HasParent.unique ⟨_, hnode, rfl⟩ (hq.children _ hmem)
      apply does_bind
      refine does_readNode (n := Inner.node q pq) hnq fun _ => ?_
      rcases hcases with ⟨pre, l, rfl, hindex, hpair⟩ | ⟨r, post, rfl, hindex, rfl, hpair⟩
      · have hindex : (Inner.node q pq).children.idxOf g.id = ps.length + 1 := hindex
        have hlevel : pre ++ [l] ++ g :: after = pre ++ l :: g :: after := by simp
        rw [hlevel] at h ⊢
        obtain ⟨pl, hnl⟩ := (h.tower.2.1 l (by simp)).node
        rw [hindex, if_pos (Nat.succ_pos _)]
        refine hpair.does_fromLeft (fun hup => ih (g := ⟨q.id, q.head, q.rest.eraseIdx ps.length⟩) hup
          (Nat.lt_of_succ_lt_succ hfuel)) hnl hnode hnq ?_ (by omega)
        have hne : some g.id ≠ some l.id := fun heq => hpair.ids_ne (Option.some.inj heq).symm
        have hl := h.filled.1 l (by simp)
        rw [if_neg hne] at hl
        exact hl.2
      · have hindex : (Inner.node q pq).children.idxOf g.id = 0 := hindex
        obtain ⟨pr, hnr⟩ := (h.tower.2.1 r (by simp)).node
        rw [hindex, if_neg (Nat.lt_irrefl 0)]
        refine hpair.does_fromRight (fun hup => ih (g := ⟨q.id, q.head, q.rest.eraseIdx 0⟩) hup (Nat.lt_of_succ_lt_succ hfuel))
          hnode hnr hnq ?_ (by omega)
        have hne : some g.id ≠ some r.id := fun heq => hpair.ids_ne (Option.some.inj heq)
        have hr := h.filled.1 r (by simp)
        rw [if_neg hne] at hr
        exact hr.2

end Ddb.Index
