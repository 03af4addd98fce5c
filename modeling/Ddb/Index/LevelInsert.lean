import Ddb.Index.Levels
import Mathlib.Data.List.InsertIdx

/-!
# A new item in the levels

`insert_into_parent` puts an item behind another one. The node that holds the place takes it up or, when it is full, is cut
in two, and the new half is a new item of the level above. At the top a root over the two halves is made.
-/

namespace Ddb.Index

open Ddb.Lib Ddb.Storage

variable {tree : BPlusTree} {s : Store} {level : List Inner} {above levels : List (List Inner)} {items xs ys : List Item}
  {key separator : KeyType} {left right : PageId}

theorem insertIdx_behind {α : Type} (ps qs : List α) (a b : α) :
    (ps ++ a :: qs).insertIdx (ps.length + 1) b = ps ++ a :: b :: qs := by
  induction ps with
  | nil => rfl
  | cons p ps ih => simpa using ih

/-- The node with an item behind position `i`. -/
def Inner.insertBehind (g : Inner) (i : Nat) (item : Item) : Inner := ⟨g.id, g.head, g.rest.insertIdx i item⟩

section InsertBehind

variable {g : Inner} {ps qs : List Item} {item new : Item}

theorem insertBehind_items (hitems : g.items = ps ++ item :: qs) :
    (g.insertBehind ps.length new).items = ps ++ item :: new :: qs := by
  rw [← insertIdx_behind, ← hitems]
  rfl

/-- What `insert_into_parent` makes of the parent's vectors. -/
theorem insertBehind_node (i : Nat) (parent : PageId) :
    Inner.node (g.insertBehind i new) parent = { Inner.node g parent with
      keys := (Inner.node g parent).keys.insertIdx i new.1
      children := (Inner.node g parent).children.insertIdx (i + 1) new.2 } := by
  simp [Inner.node, Inner.insertBehind, Group.keys, Group.children, Group.items, List.map_insertIdx]

theorem insertBehind_children (hitems : g.items = ps ++ item :: qs) (c : PageId) :
    c ∈ (g.insertBehind ps.length new).children ↔ c = new.2 ∨ c ∈ g.children := by
  rw [Group.children, insertBehind_items hitems, Group.children, hitems]
  simp only [List.map_append, List.map_cons, List.mem_append, List.mem_cons]
  tauto

theorem insertBehind_length (new : Item) (hitems : g.items = ps ++ item :: qs) :
    (g.insertBehind ps.length new).rest.length = g.rest.length + 1 := by
  have hlength : g.rest.length + 1 = ps.length + (qs.length + 1) := by simpa [Group.items] using congrArg List.length hitems
  exact List.length_insertIdx_of_le_length (by omega) _

theorem insertBehind_flatMap {before after : List Inner} (hitems : g.items = ps ++ item :: qs) :
    (before ++ g.insertBehind ps.length new :: after).flatMap Group.items =
      (before.flatMap Group.items ++ ps) ++ item :: new :: (qs ++ after.flatMap Group.items) := by
  simp [insertBehind_items hitems]

/-- A new id in the list keeps the ids apart. -/
theorem insertBehind_nodup {before after : List Inner} (hitems : g.items = ps ++ item :: qs)
    (hnodup : (((before ++ g :: after).flatMap Group.items).map Prod.snd).Nodup)
    (hnew : new.2 ∉ ((before ++ g :: after).flatMap Group.items).map Prod.snd) :
    (((before ++ g.insertBehind ps.length new :: after).flatMap Group.items).map Prod.snd).Nodup := by
  have hold : (before ++ g :: after).flatMap Group.items =
      (before.flatMap Group.items ++ ps ++ [item]) ++ (qs ++ after.flatMap Group.items) := by simp [hitems]
  have hins : (before ++ g.insertBehind ps.length new :: after).flatMap Group.items =
      (before.flatMap Group.items ++ ps ++ [item]) ++ new :: (qs ++ after.flatMap Group.items) := by
    rw [insertBehind_flatMap hitems]
    simp
  rw [hold, List.map_append] at hnodup hnew
  rw [hins, List.map_append, List.map_cons, List.nodup_middle]
  exact List.nodup_cons.mpr ⟨hnew, hnodup⟩

end InsertBehind

/-- A new root over the old one and its new neighbour. -/
theorem Upper.newRoot {t : Store} {id : PageId} (h : Upper tree s none [] [(key, left)])
    (hheader : t tree.metadata = some (.header id tree.config))
    (hroot : t id = some (.node ⟨false, .invalid, .invalid, [separator], [], [left, right]⟩)) (hleft : HasParent t left id)
    (hright : HasParent t right id) (hids : [left, right, id].Nodup) (hvalid : id.isValid = true) :
    Upper { tree with root := id } t none [[⟨id, (key, left), [(separator, right)]⟩]] [(key, left), (separator, right)] := by
  have htop : Upper { tree with root := id } t none [] [(key, id)] :=
    ⟨h.accepted, hheader, ⟨⟨_, rfl⟩, _, hroot, rfl⟩, List.nodup_singleton _, by simp [innerIds], trivial⟩
  refine Upper.cons htop rfl ?_ ?_ ?_ ?_ ?_
  · simp only [List.mem_singleton, forall_eq]
    refine ⟨⟨.invalid, hroot⟩, fun child hchild => ?_⟩
    simp only [Group.children, Group.items, List.map_cons, List.map_nil, List.mem_cons, List.not_mem_nil, or_false] at hchild
    rcases hchild with rfl | rfl
    · exact hleft
    · exact hright
  · simp_all
  · simp_all [innerIds]
  · simpa using hvalid
  · have hmax := h.accepted.internal
    simp only [List.mem_singleton, forall_eq, minKeys, List.length_singleton]
    exact ⟨Nat.le_of_succ_le hmax, by simp⟩

/-- A node of the tree, and nothing that the levels know. -/
structure NewItem (s : Store) (levels : List (List Inner)) (items : List Item) (right : PageId) : Prop where
  node : ∃ node, s right = some (.node node)
  items : right ∉ items.map Prod.snd
  inner : right ∉ innerIds levels

theorem NewItem.ne_metadata {hole : Option PageId} (h : NewItem s levels items right) (hup : Upper tree s hole levels items) :
    right ≠ tree.metadata := by
  rintro rfl
  obtain ⟨node, hnode⟩ := h.node
  rw [hup.header] at hnode
  cases hnode

/-- The node of an item has room for another one behind it. -/
theorem Upper.roomy (separator : KeyType) {before after : List Inner} {g : Inner} {ps qs : List Item} {parent : PageId}
    (h : Upper tree s none ((before ++ g :: after) :: above) items) (hitems : g.items = ps ++ (key, left) :: qs)
    (hg : s g.id = some (.node (Inner.node g parent))) (hnew : NewItem s ((before ++ g :: after) :: above) items right)
    (hsize : (g.insertBehind ps.length (separator, right)).rest.length ≤ tree.config.internalMaxKeys) :
    Upper tree ((s.reparent g.id [right]).write g.id (Inner.node (g.insertBehind ps.length (separator, right)) parent)) none
      ((before ++ g.insertBehind ps.length (separator, right) :: after) :: above)
      ((before ++ g.insertBehind ps.length (separator, right) :: after).flatMap Group.items) := by
  obtain ⟨t, ht⟩ : ∃ t, t = (s.reparent g.id [right]).write g.id (Inner.node (g.insertBehind ps.length (separator, right)) parent) :=
    ⟨_, rfl⟩
  have hother : ∀ id, id ≠ g.id → id ≠ right → t id = s id := fun id hg hright => by
    rw [ht, Store.write_of_ne hg, Store.reparent_of_not_mem (by simpa using hright)]
  have hgroup : g.id ∈ innerIds ((before ++ g :: after) :: above) := mem_innerIds (by simp)
  have hkept : ∀ other ∈ before ++ g :: after, ∀ c ∈ other.children, HasParent t c other.id := by
    intro other hin c hc
    have hapart := h.items_apart (h.child_mem hin hc)
    obtain ⟨node, hnode, hparent⟩ := (h.tower.2.1 other hin).children c hc
    refine ⟨node, ?_, hparent⟩
    rw [hother c (fun heq => hapart.1 (heq ▸ hgroup)) fun heq => hnew.items (heq ▸ h.child_mem hin hc)]
    exact hnode
  have hright : HasParent t right g.id := by
    obtain ⟨node, hnode⟩ := hnew.node
    refine ⟨{ node with parent := g.id }, ?_, rfl⟩
    have hne : right ≠ g.id := fun heq => hnew.inner (heq ▸ hgroup)
    rw [ht, Store.write_of_ne hne, Store.reparent_of_mem (by simp), hnode]
    rfl
  rw [← ht]
  refine h.replace rfl rfl ⟨parent, hg, by rw [ht]; exact Store.write_self _ _ _⟩ ?_ ?_ ?_ ?_ ?_ ?_
  · intro id hid hne
    refine hother id hne ?_
    rintro rfl
    exact (List.mem_cons.mp hid).elim (hnew.ne_metadata h) hnew.inner
  · intro other hin c hc _
    exact hkept other (mem_middle.mpr (.inr hin)) c hc
  · intro c hc
    rcases (insertBehind_children hitems c).mp hc with rfl | hc
    · exact hright
    · exact hkept g (by simp) c hc
  · have hnodup := h.ids.of_append_left
    have hfresh := hnew.items
    rw [← h.tower.1] at hnodup hfresh
    exact insertBehind_nodup hitems hnodup hfresh
  · intro c hc
    rcases (insertBehind_children hitems c).mp hc with rfl | hc
    · exact hnew.inner
    · exact (h.items_apart (h.child_mem (by simp) hc)).1
  · refine ⟨hsize, ?_⟩
    have hmin := (h.filled.1 g (by simp)).2
    rw [insertBehind_length _ hitems]
    omega

/-- The halves of a node that is too full, `id` being the new one. -/
structure Halves (g : Inner) (id : PageId) (mid : Nat) (first second : Inner) : Prop where
  firstId : first.id = g.id
  secondId : second.id = id
  head : first.head = g.head
  items : first.items ++ second.items = g.items
  length : first.rest.length = mid

/-- The two halves, whatever id the second one gets. -/
theorem exists_halves (g : Inner) {mid : Nat} (hmid : mid < g.rest.length) :
    ∃ first head rest, ∀ id, Halves g id mid first ⟨id, head, rest⟩ := by
  refine ⟨⟨g.id, g.head, g.rest.take mid⟩, g.rest[mid], g.rest.drop (mid + 1), fun id => ⟨rfl, rfl, rfl, ?_, ?_⟩⟩
  · simp [Group.items]
  · simp
    omega

namespace Halves

variable {g first second : Inner} {id : PageId} {mid : Nat}

theorem rest (h : Halves g id mid first second) : g.rest = first.rest ++ second.items := by
  have hitems := h.items
  rw [Group.items, List.cons_append] at hitems
  exact (List.cons.inj hitems).2.symm

theorem promote (h : Halves g id mid first second) : g.keys[mid]? = some second.head.1 := by
  rw [Group.keys, h.rest, ← h.length]
  simp [Group.items]

/-- What `insert_into_parent` leaves in the old node. -/
theorem first_node (h : Halves g id mid first second) (parent : PageId) : Inner.node first parent = { Inner.node g parent with
    keys := (Inner.node g parent).keys.take mid
    children := (Inner.node g parent).children.take (mid + 1) } := by
  simp [Inner.node, Group.keys, Group.children, Group.items, h.rest, h.head, ← h.length]

/-- What it puts into the new one. -/
theorem second_node (h : Halves g id mid first second) (parent : PageId) : Inner.node second parent =
    ⟨false, parent, .invalid, (Inner.node g parent).keys.drop (mid + 1), [], (Inner.node g parent).children.drop (mid + 1)⟩ := by
  simp [Inner.node, Group.keys, Group.children, Group.items, h.rest, ← h.length, List.drop_append]

theorem second_length (h : Halves g id mid first second) : second.rest.length + mid + 1 = g.rest.length := by
  have hlength := congrArg List.length h.rest
  rw [List.length_append, h.length] at hlength
  simp only [Group.items, List.length_cons] at hlength
  omega

theorem children (h : Halves g id mid first second) : g.children = first.children ++ second.children := by
  rw [Group.children, Group.children, Group.children, ← h.items, List.map_append]

end Halves

theorem ne_nil_of_two {tree : BPlusTree} {s : Store} {hole : Option PageId} {levels : List (List Inner)} {a b : Item}
    (h : Upper tree s hole levels (xs ++ a :: b :: ys)) : levels ≠ [] := by
  rintro rfl
  obtain ⟨⟨key, hitems⟩, -⟩ := h.tower
  have hlength := congrArg List.length hitems
  simp only [List.length_append, List.length_cons, List.length_nil] at hlength
  omega

/-- The store after a node has been cut in two, before the level above hears of it. -/
def Store.cut (s : Store) (id right parent : PageId) (g first second : Inner) : Store :=
  (((s.reparent g.id [right]).write id (Inner.node second parent)).write g.id (Inner.node first parent)).reparent id second.children

section Cut

variable {before after : List Inner} {g first second : Inner} {ps qs : List Item} {parent id : PageId} {mid : Nat}

/-- What the cut is made on. -/
structure CutAt (tree : BPlusTree) (s : Store) (above : List (List Inner)) (items : List Item) (before after : List Inner)
    (g first second : Inner) (ps qs : List Item) (key separator : KeyType) (left right parent id : PageId) (mid : Nat) : Prop where
  upper : Upper tree s none ((before ++ g :: after) :: above) items
  split : g.items = ps ++ (key, left) :: qs
  node : s g.id = some (.node (Inner.node g parent))
  new : NewItem s ((before ++ g :: after) :: above) items right
  free : s id = none
  halves : Halves (g.insertBehind ps.length (separator, right)) id mid first second

variable (h : CutAt tree s above items before after g first second ps qs key separator left right parent id mid) {c : PageId}

include h

theorem CutAt.child_cases (hc : c ∈ first.children ++ second.children) :
    c ≠ g.id ∧ c ≠ id ∧ c ∉ innerIds ((before ++ g :: after) :: above) ∧ c ≠ tree.metadata ∧ ∃ node, s c = some (.node node) ∧
      (c ≠ right → node.parent = g.id) := by
  have hgroup : g.id ∈ innerIds ((before ++ g :: after) :: above) := mem_innerIds (by simp)
  rw [← h.halves.children, insertBehind_children h.split] at hc
  rcases hc with rfl | hc
  · obtain ⟨node, hnode⟩ := h.new.node
    refine ⟨?_, ?_, h.new.inner, h.new.ne_metadata h.upper, node, hnode, fun hne => absurd rfl hne⟩
    · rintro rfl
      exact h.new.inner hgroup
    · rintro rfl
      rw [h.free] at hnode
      cases hnode
  · have hmem := h.upper.child_mem (g := g) (by simp) hc
    obtain ⟨hinner, hthere, hmeta⟩ := h.upper.items_apart hmem
    obtain ⟨node, hnode, hparent⟩ := (h.upper.tower.2.1 g (by simp)).children c hc
    refine ⟨fun heq => hinner (heq ▸ hgroup), ?_, hinner, hmeta, node, hnode, fun _ => hparent⟩
    rintro rfl
    exact hthere h.free

omit h in
theorem cut_other (hg : c ≠ g.id) (hid : c ≠ id) (hright : c ≠ right) (hchildren : c ∉ second.children) :
    s.cut id right parent g first second c = s c := by
  rw [Store.cut, Store.reparent_of_not_mem hchildren, Store.write_of_ne hg, Store.write_of_ne hid,
    Store.reparent_of_not_mem (by simpa using hright)]

theorem CutAt.id_ne : id ≠ g.id := by
  intro heq
  have hnode := h.node
  rw [← heq, h.free] at hnode
  cases hnode

theorem CutAt.first_at : s.cut id right parent g first second g.id = some (.node (Inner.node first parent)) := by
  have hnot : g.id ∉ second.children := fun hin => (h.child_cases (List.mem_append_right _ hin)).1 rfl
  rw [Store.cut, Store.reparent_of_not_mem hnot, Store.write_self]

theorem CutAt.second_at : s.cut id right parent g first second id = some (.node (Inner.node second parent)) := by
  have hnot : id ∉ second.children := fun hin => (h.child_cases (List.mem_append_right _ hin)).2.1 rfl
  rw [Store.cut, Store.reparent_of_not_mem hnot, Store.write_of_ne h.id_ne, Store.write_self]

theorem CutAt.nodup : (first.children ++ second.children).Nodup := by
  have hnodup := h.upper.ids.of_append_left
  have hfresh := h.new.items
  rw [← h.upper.tower.1] at hnodup hfresh
  have hall : (((before ++ g.insertBehind ps.length (separator, right) :: after).flatMap Group.items).map Prod.snd).Nodup :=
    insertBehind_nodup h.split hnodup hfresh
  rw [List.flatMap_append, List.flatMap_cons, List.map_append, List.map_append] at hall
  rw [← h.halves.children]
  exact hall.of_append_right.of_append_left

/-- The children of the two halves know them. -/
theorem CutAt.child_parent : (c ∈ first.children → HasParent (s.cut id right parent g first second) c g.id) ∧
    (c ∈ second.children → HasParent (s.cut id right parent g first second) c id) := by
  refine ⟨fun hc => ?_, fun hc => ?_⟩
  · obtain ⟨hg, hid, -, -, node, hnode, hparent⟩ := h.child_cases (List.mem_append_left _ hc)
    have hnot : c ∉ second.children := fun hin => (List.nodup_append.mp h.nodup).2.2 c hc c hin rfl
    by_cases hright : c = right
    · refine ⟨{ node with parent := g.id }, ?_, rfl⟩
      rw [Store.cut, Store.reparent_of_not_mem hnot, Store.write_of_ne hg, Store.write_of_ne hid,
        Store.reparent_of_mem (by simpa using hright), hnode]
      rfl
    · exact ⟨node, by rw [cut_other hg hid hright hnot]; exact hnode, hparent hright⟩
  · obtain ⟨hg, hid, -, -, node, hnode, -⟩ := h.child_cases (List.mem_append_right _ hc)
    by_cases hright : c = right
    · refine ⟨{ node with parent := id }, ?_, rfl⟩
      rw [Store.cut, Store.reparent_of_mem hc, Store.write_of_ne hg, Store.write_of_ne hid,
        Store.reparent_of_mem (by simpa using hright), hnode]
      rfl
    · refine ⟨{ node with parent := id }, ?_, rfl⟩
      rw [Store.cut, Store.reparent_of_mem hc, Store.write_of_ne hg, Store.write_of_ne hid,
        Store.reparent_of_not_mem (by simpa using hright), hnode]
      rfl

/-- The nodes of the tree, but for the cut one, are as they were. -/
theorem CutAt.inner_same (hc : c ∈ tree.metadata :: innerIds ((before ++ g :: after) :: above)) (hne : c ≠ g.id) :
    s.cut id right parent g first second c = s c := by
  have hthere : s c ≠ none := by
    rcases List.mem_cons.mp hc with rfl | hc
    · simp [h.upper.header]
    · obtain ⟨p, hp⟩ := h.upper.tower.inner_node hc
      exact hp.ne_none
  refine cut_other hne (fun heq => hthere (heq ▸ h.free)) ?_ ?_
  · rintro rfl
    exact (List.mem_cons.mp hc).elim (h.new.ne_metadata h.upper) h.new.inner
  · intro hin
    obtain ⟨-, -, hinner, hmeta, -⟩ := h.child_cases (List.mem_append_right _ hin)
    exact (List.mem_cons.mp hc).elim hmeta hinner

theorem CutAt.up : Upper tree (s.cut id right parent g first second) none above ((before ++ g :: after).map Group.item) := by
  have hup := h.upper.up
  refine ⟨hup.accepted, ?_, hup.tower.congr (fun c hc => ?_) fun c hc p hp => ?_, hup.ids, hup.valid, hup.filled⟩
  · rw [h.inner_same List.mem_cons_self (h.upper.inner_ne_metadata (mem_innerIds (by simp))).symm]
    exact h.upper.header
  · refine h.inner_same (List.mem_cons_of_mem _ (mem_innerIds_above hc)) ?_
    rintro rfl
    exact (hup.items_apart (by simp [Group.item])).1 hc
  · rw [item_ids] at hc
    obtain ⟨node, hnode, rfl⟩ := hp
    obtain ⟨other, hother, rfl⟩ := List.mem_map.mp hc
    by_cases hne : other.id = g.id
    · rw [hne] at hnode ⊢
      obtain rfl := Cell.node.inj (Option.some.inj (h.node.symm.trans hnode))
      exact ⟨_, h.first_at, rfl⟩
    · exact ⟨node, by rw [h.inner_same (List.mem_cons_of_mem _ (mem_innerIds hother)) hne]; exact hnode, rfl⟩

theorem CutAt.newItem : NewItem (s.cut id right parent g first second) above ((before ++ g :: after).map Group.item) id := by
  have hnone : ∀ c ∈ innerIds ((before ++ g :: after) :: above), c ≠ id := by
    rintro c hc rfl
    obtain ⟨p, hp⟩ := h.upper.tower.inner_node hc
    exact hp.ne_none h.free
  refine ⟨⟨_, h.second_at⟩, fun hin => ?_, fun hin => hnone id (mem_innerIds_above hin) rfl⟩
  rw [item_ids] at hin
  obtain ⟨other, hother, heq⟩ := List.mem_map.mp hin
  exact hnone other.id (mem_innerIds hother) heq

theorem CutAt.innerAt {g' : Inner} (hg' : g' ∈ before ++ first :: second :: after) :
    InnerAt (s.cut id right parent g first second) g' := by
  have hcases : g' = first ∨ g' = second ∨ g' ∈ before ++ after := by
    simp only [List.mem_append, List.mem_cons] at hg' ⊢
    tauto
  rcases hcases with rfl | rfl | hg'
  · have hid : g'.id = g.id := h.halves.firstId
    exact ⟨⟨parent, by rw [hid]; exact h.first_at⟩, fun c hc => by rw [hid]; exact h.child_parent.1 hc⟩
  · have hid : g'.id = id := h.halves.secondId
    exact ⟨⟨parent, by rw [hid]; exact h.second_at⟩, fun c hc => by rw [hid]; exact h.child_parent.2 hc⟩
  -- The other nodes of the level have no part in it.
  have hin : g' ∈ before ++ g :: after := by
    simp only [List.mem_append, List.mem_cons] at hg' ⊢
    tauto
  have hold := h.upper.tower.2.1 g' hin
  have hids := h.upper.above_ids.of_append_left
  rw [List.map_append, List.map_cons, List.nodup_middle, ← List.map_append] at hids
  have hne : g'.id ≠ g.id := fun heq => (List.nodup_cons.mp hids).1 (heq ▸ List.mem_map_of_mem hg')
  refine ⟨?_, fun c hc => ?_⟩
  · rw [h.inner_same (List.mem_cons_of_mem _ (mem_innerIds hin)) hne]
    exact hold.node
  · obtain ⟨node, hnode, hparent⟩ := hold.children c hc
    obtain ⟨hinner, hthere, -⟩ := h.upper.items_apart (h.upper.child_mem hin hc)
    have hright : c ≠ right := fun heq => h.new.items (heq ▸ h.upper.child_mem hin hc)
    refine ⟨node, ?_, hparent⟩
    have hcg : c ≠ g.id := fun heq => hinner (heq ▸ mem_innerIds (by simp))
    have hcid : c ≠ id := fun heq => hthere (heq ▸ h.free)
    rw [cut_other hcg hcid hright]
    · exact hnode
    · intro hsecond
      -- A child of two nodes would have two parents.
      obtain ⟨-, -, -, -, node', hnode', hparent'⟩ := h.child_cases (List.mem_append_right _ hsecond)
      obtain rfl := Cell.node.inj (Option.some.inj (hnode.symm.trans hnode'))
      exact hne (hparent.symm.trans (hparent' hright))

theorem CutAt.repaired : Repaired tree tree s (s.cut id right parent g first second) (right :: items.map Prod.snd)
    ((before ++ g :: after) :: above) ((before ++ g :: after) :: above) := by
  have hgroup : g.id ∈ innerIds ((before ++ g :: after) :: above) := mem_innerIds (by simp)
  have hgLower : g.id ∉ right :: items.map Prod.snd := by
    rw [List.mem_cons, not_or]
    exact ⟨fun heq => h.new.inner (heq ▸ hgroup), fun hin => (h.upper.items_apart hin).1 hgroup⟩
  have hidLower : id ∉ right :: items.map Prod.snd := by
    rw [List.mem_cons, not_or]
    refine ⟨?_, fun hin => (h.upper.items_apart hin).2.1 h.free⟩
    rintro rfl
    obtain ⟨node, hnode⟩ := h.new.node
    rw [h.free] at hnode
    cases hnode
  have hfree : s.reparent g.id [right] id = none := by
    rw [Store.reparent_of_not_mem (by simpa using fun heq => hidLower (by simp [heq])), h.free]
  have hchildren : ∀ c ∈ second.children, c ∈ right :: items.map Prod.snd := by
    intro c hc
    have hc : c ∈ (g.insertBehind ps.length (separator, right)).children := by
      rw [h.halves.children]
      exact List.mem_append_right _ hc
    rcases (insertBehind_children h.split c).mp hc with rfl | hc
    · exact List.mem_cons_self
    · exact List.mem_cons_of_mem _ (h.upper.child_mem (by simp) hc)
  have hright : Repaired tree tree s (s.reparent g.id [right]) (right :: items.map Prod.snd)
      ((before ++ g :: after) :: above) ((before ++ g :: after) :: above) := repaired_reparent (by simp)
  refine ((hright.trans (repaired_write (.inr hfree) hidLower (by simp [hfree]))).trans
    (repaired_write (.inl hgroup) hgLower ?_)).trans (repaired_reparent hchildren)
  intro page
  rw [Store.write_of_ne h.id_ne.symm, Store.reparent_of_not_mem (by simpa using fun heq => hgLower (by simp [heq])), h.node]
  simp

/-- The ids of the items, with the new one among them, are apart from the levels above. -/
theorem CutAt.flatMap_ids (hc : c ∈ ((before ++ first :: second :: after).flatMap Group.items).map Prod.snd) :
    c = right ∨ c ∈ items.map Prod.snd := by
  rw [← h.upper.tower.1]
  simp only [List.flatMap_append, List.flatMap_cons, List.map_append, List.mem_append] at hc ⊢
  have hhalves : c ∈ first.items.map Prod.snd ∨ c ∈ second.items.map Prod.snd → c = right ∨ c ∈ g.items.map Prod.snd := fun hc =>
    (insertBehind_children h.split c).mp (h.halves.children ▸ List.mem_append.mpr hc)
  tauto

/-- The level with its cut node, once the level above knows the new half. -/
theorem CutAt.assemble {tree' : BPlusTree} {s' : Store} {above' : List (List Inner)} (hvalid : id.isValid = true)
    (hrep : Repaired tree tree' (s.cut id right parent g first second) s'
      (id :: ((before ++ g :: after).map Group.item).map Prod.snd) above above')
    (hup : Upper tree' s' none above' (before.map Group.item ++ g.item :: (second.head.1, id) :: after.map Group.item))
    (hsize : ∀ half ∈ [first, second], half.rest.length ≤ tree.config.internalMaxKeys ∧
      tree.config.internalMaxKeys / 2 ≤ half.rest.length) :
    Upper tree' s' none ((before ++ first :: second :: after) :: above')
      ((before ++ first :: second :: after).flatMap Group.items) := by
  have hfirst : first.item = g.item := by
    rw [Group.item, h.halves.head, h.halves.firstId]
    rfl
  have hsecond : second.item = (second.head.1, id) := by rw [Group.item, h.halves.secondId]
  have hgroups : ∀ g' ∈ before ++ first :: second :: after, g' ∈ [first, second] ∨ g' ∈ before ++ after := by
    intro g' hg'
    simp only [List.mem_append, List.mem_cons] at hg' ⊢
    tauto
  have hin : ∀ g' ∈ before ++ after, g' ∈ before ++ g :: after := by
    intro g' hg'
    simp only [List.mem_append, List.mem_cons] at hg' ⊢
    tauto
  have hids : ∀ g' ∈ before ++ first :: second :: after,
      g'.id ∈ id :: ((before ++ g :: after).map Group.item).map Prod.snd := by
    intro g' hg'
    rw [item_ids]
    rcases hgroups g' hg' with hg' | hg'
    · simp only [List.mem_cons, List.not_mem_nil, or_false] at hg'
      rcases hg' with rfl | rfl
      · exact List.mem_cons_of_mem _ (by rw [show g'.id = g.id from h.halves.firstId]; exact List.mem_map_of_mem (by simp))
      · rw [show g'.id = id from h.halves.secondId]
        exact List.mem_cons_self
    · exact List.mem_cons_of_mem _ (List.mem_map_of_mem (hin g' hg'))
  -- An item is none of the nodes that the level above has touched.
  have hthere : ∀ c, c = right ∨ c ∈ items.map Prod.snd → c ∉ innerIds ((before ++ g :: after) :: above) ∧ s c ≠ none ∧
      c ≠ tree.metadata := by
    rintro c (rfl | hc)
    · obtain ⟨node, hnode⟩ := h.new.node
      exact ⟨h.new.inner, by simp [hnode], h.new.ne_metadata h.upper⟩
    · exact h.upper.items_apart hc
  have happart : ∀ c, c = right ∨ c ∈ items.map Prod.snd → c ≠ tree.metadata ∧
      c ∉ id :: ((before ++ g :: after).map Group.item).map Prod.snd ∧ c ∉ innerIds above := by
    intro c hc
    have hall := hthere c hc
    have hinner := hall.1
    rw [innerIds_cons, List.mem_append, not_or] at hinner
    refine ⟨hall.2.2, ?_, hinner.2⟩
    rw [item_ids, List.mem_cons, not_or]
    exact ⟨fun heq => hall.2.1 (heq ▸ h.free), hinner.1⟩
  have hmin : minKeys tree'.config above' = tree.config.internalMaxKeys / 2 := by
    obtain ⟨level, rest, rfl⟩ := List.exists_cons_of_ne_nil (ne_nil_of_two hup)
    rw [minKeys, hrep.config]
  refine Upper.cons (by simpa [hfirst, hsecond] using hup) rfl ?_ ?_ ?_ ?_ ?_
  · intro g' hg'
    refine (h.innerAt hg').repaired hrep (hids g' hg') fun c hc => happart c (h.flatMap_ids ?_)
    obtain ⟨item, hitem, rfl⟩ := List.mem_map.mp hc
    exact List.mem_map_of_mem (List.mem_flatMap.mpr ⟨g', hg', hitem⟩)
  · have hnodup := h.upper.ids.of_append_left
    have hfresh := h.new.items
    rw [← h.upper.tower.1] at hnodup hfresh
    have hall : (((before ++ g.insertBehind ps.length (separator, right) :: after).flatMap Group.items).map Prod.snd).Nodup :=
      insertBehind_nodup h.split hnodup hfresh
    rw [List.flatMap_append, List.flatMap_cons, ← h.halves.items] at hall
    simpa using hall
  · intro c hc hin'
    have hc := h.flatMap_ids hc
    rcases List.mem_append.mp hin' with hin' | hin'
    · obtain ⟨g', hg', rfl⟩ := List.mem_map.mp hin'
      exact (happart _ hc).2.1 (hids g' hg')
    · exact (hrep.fresh c hin').elim (happart c hc).2.2 (h.repaired.there c (hthere c hc).2.1)
  · intro g' hg'
    rcases hgroups g' hg' with hg' | hg'
    · simp only [List.mem_cons, List.not_mem_nil, or_false] at hg'
      rcases hg' with rfl | rfl
      · rw [show g'.id = g.id from h.halves.firstId]
        exact h.upper.valid g.id (mem_innerIds (by simp))
      · rw [show g'.id = id from h.halves.secondId]
        exact hvalid
    · exact h.upper.valid g'.id (mem_innerIds (hin g' hg'))
  · intro g' hg'
    rw [hmin, hrep.config]
    rcases hgroups g' hg' with hg' | hg'
    · exact ⟨(hsize g' hg').1, Nat.le_add_right_of_le (hsize g' hg').2⟩
    · have hfilled := h.upper.filled.1 g' (hin g' hg')
      refine ⟨hfilled.1, ?_⟩
      cases habove : above with
      | nil =>
        -- The root has no neighbour.
        subst habove
        obtain ⟨⟨k, hroot⟩, -⟩ := h.upper.up.tower
        have hlength := congrArg List.length hroot
        have hmem := List.length_pos_of_mem hg'
        simp only [List.length_map, List.length_append, List.length_cons, List.length_nil] at hlength hmem
        omega
      | cons level rest =>
        rw [habove] at hfilled
        exact hfilled.2

end Cut

/-- An item is put behind another one. -/
theorem does_insertIntoParent (h : Upper tree s none levels (xs ++ (key, left) :: ys))
    (hnew : NewItem s levels (xs ++ (key, left) :: ys) right) {fuel : Nat} (hfuel : levels.length < fuel) :
    (BPlusTree.insertIntoParent fuel left separator right).Does tree s fun _ tree' s' => ∃ levels',
      Upper tree' s' none levels' (xs ++ (key, left) :: (separator, right) :: ys) ∧
        Repaired tree tree' s s' (right :: (xs ++ (key, left) :: ys).map Prod.snd) levels levels' := by
  induction levels generalizing fuel xs ys key left separator right s with
  | nil =>
    obtain ⟨fuel, rfl⟩ := Nat.exists_eq_add_one_of_ne_zero (Nat.ne_of_gt hfuel)
    obtain ⟨⟨key', hitems⟩, leftNode, hleft, hparent⟩ := h.tower
    obtain ⟨rfl, hitem, rfl⟩ : xs = [] ∧ (key, left) = (key', tree.root) ∧ ys = [] := by
      cases xs with
      | nil => simpa using hitems
      | cons x xs => simp at hitems
    obtain ⟨rfl, rfl⟩ := Prod.mk.inj hitem
    obtain ⟨rightNode, hright⟩ := hnew.node
    rw [BPlusTree.insertIntoParent]
    apply does_bind
    refine does_readNode hleft fun _ => ?_
    rw [if_pos (by rw [hparent]; rfl)]
    apply does_bind
    refine does_allocateNode h.accepted ⟨?_, by simp⟩ fun id hfree hvalid => ?_
    · have hmax := h.accepted.internal
      simp only [BPlusTreeConfig.maxKeys, List.length_singleton, Bool.false_eq_true, if_false]
      omega
    have hleftId : tree.root ≠ id := fun heq => by rw [heq, hfree] at hleft; cases hleft
    have hrightId : right ≠ id := fun heq => by rw [heq, hfree] at hright; cases hright
    have hne : right ≠ tree.root := by simpa using hnew.items
    have hmetaId : id ≠ tree.metadata := fun heq => by rw [heq, h.header] at hfree; cases hfree
    have hmetaLeft := h.items_ne_metadata (p := tree.root) (by simp)
    have hmetaRight := hnew.ne_metadata h
    obtain ⟨t₁, ht₁⟩ : ∃ t, t = s.write id ⟨false, .invalid, .invalid, [separator], [], [tree.root, right]⟩ := ⟨_, rfl⟩
    obtain ⟨t₂, ht₂⟩ : ∃ t, t = t₁.reparent id [tree.root] := ⟨_, rfl⟩
    obtain ⟨t₃, ht₃⟩ : ∃ t, t = t₂.reparent id [right] := ⟨_, rfl⟩
    have hleft₁ : t₁ tree.root = some (.node leftNode) := by rw [ht₁, Store.write_of_ne hleftId, hleft]
    have hright₂ : t₂ right = some (.node rightNode) := by
      rw [ht₂, Store.reparent_of_not_mem (by simpa using hne), ht₁, Store.write_of_ne hrightId, hright]
    have hmeta₃ : t₃ tree.metadata = some (.header tree.root tree.config) := by
      rw [ht₃, Store.reparent_of_not_mem (by simpa using hmetaRight.symm), ht₂,
        Store.reparent_of_not_mem (by simpa using hmetaLeft.symm), ht₁, Store.write_of_ne hmetaId.symm, h.header]
    rw [← ht₁]
    apply does_bind
    refine does_setParent h.accepted hleft₁ ?_
    rw [← ht₂]
    apply does_bind
    refine does_setParent h.accepted hright₂ ?_
    rw [← ht₃]
    refine does_setRoot h.accepted (by simp [hmeta₃]) ⟨_, h.newRoot ?_ ?_ ?_ ?_ ?_ hvalid, ?_⟩
    · simp
    · rw [Store.writeHeader_of_ne hmetaId, ht₃, Store.reparent_of_not_mem (by simpa using hrightId.symm), ht₂,
        Store.reparent_of_not_mem (by simpa using hleftId.symm), ht₁, Store.write_self]
    · refine ⟨{ leftNode with parent := id }, ?_, rfl⟩
      rw [Store.writeHeader_of_ne hmetaLeft, ht₃, Store.reparent_of_not_mem (by simpa using hne.symm), ht₂,
        Store.reparent_of_mem (by simp), hleft₁]
      rfl
    · refine ⟨{ rightNode with parent := id }, ?_, rfl⟩
      rw [Store.writeHeader_of_ne hmetaRight, ht₃, Store.reparent_of_mem (by simp), hright₂]
      rfl
    · simp [hne.symm, hleftId, hrightId]
    · have hwrite : Repaired tree tree s t₁ (right :: ([] ++ [(key, tree.root)]).map Prod.snd) [] [] := by
        rw [ht₁]
        exact repaired_write (.inr hfree) (by simp [hrightId.symm, hleftId.symm]) (by simp [hfree])
      have hfirst : Repaired tree tree t₁ t₂ (right :: ([] ++ [(key, tree.root)]).map Prod.snd) [] [] := by
        rw [ht₂]
        exact repaired_reparent (by simp)
      have hsecond : Repaired tree tree t₂ t₃ (right :: ([] ++ [(key, tree.root)]).map Prod.snd) [] [] := by
        rw [ht₃]
        exact repaired_reparent (by simp)
      refine Repaired.regroup ((hwrite.trans (hfirst.trans hsecond)).trans (repaired_setRoot hmeta₃ ?_)) ?_
      · simp [hmetaRight.symm, hmetaLeft.symm]
      · simp [innerIds, hfree]
  | cons level above ih =>
    obtain ⟨fuel, rfl⟩ := Nat.exists_eq_add_one_of_ne_zero (Nat.ne_of_gt (Nat.zero_lt_of_lt hfuel))
    obtain ⟨before, g, after, ps, qs, rfl, hitems, rfl, rfl, hinner, hindex, hvalid⟩ := h.located
    obtain ⟨parent, hg⟩ := hinner.node
    have hchild : left ∈ g.children := by rw [Group.children, hitems]; simp
    obtain ⟨leftNode, hleft, hparent⟩ := hinner.children left hchild
    obtain ⟨rightNode, hright⟩ := hnew.node
    have hindex : (Inner.node g parent).children.idxOf left = ps.length := hindex
    have hlength : g.rest.length + 1 = ps.length + (qs.length + 1) := by simpa [Group.items] using congrArg List.length hitems
    have hne : ps.length ≠ (Inner.node g parent).children.length := by
      simp only [Inner.node, Group.children, Group.items, List.length_map, List.length_cons]
      omega
    rw [BPlusTree.insertIntoParent]
    apply does_bind
    refine does_readNode hleft fun _ => ?_
    rw [hparent, if_neg (by simp [hvalid])]
    apply does_bind
    refine does_readNode hg fun hsized => ?_
    dsimp only
    rw [hindex, if_neg hne]
    apply does_bind
    refine does_insertAt (by simp only [Inner.node, Group.keys, List.length_map]; omega) ?_
    apply does_bind
    refine does_insertAt (by simp only [Inner.node, Group.children, Group.items, List.length_map, List.length_cons]; omega) ?_
    apply does_bind
    refine does_setParent h.accepted hright ?_
    apply does_bind
    refine does_get ?_
    obtain ⟨full, hfull⟩ : ∃ full, full = g.insertBehind ps.length (separator, right) := ⟨_, rfl⟩
    have hnode := @insertBehind_node g (separator, right) ps.length parent
    rw [← hfull] at hnode
    have hkeys : (Inner.node g parent).keys.insertIdx ps.length separator = (Inner.node full parent).keys := by rw [hnode]
    have hchildren : (Inner.node g parent).children.insertIdx (ps.length + 1) right = (Inner.node full parent).children := by
      rw [hnode]
    have hcount : (Inner.node full parent).keys.length = g.rest.length + 1 := by
      rw [hfull, ← insertBehind_length (separator, right) hitems]
      simp [Inner.node, Group.keys]
    have hmax := (h.filled.1 g (by simp)).1
    have hgThere : s.reparent g.id [right] g.id ≠ none := by
      rw [Ne, Store.reparent_eq_none]
      exact hinner.ne_none
    rw [hkeys, hchildren]
    by_cases hroom : (Inner.node full parent).keys.length ≤ tree.config.internalMaxKeys
    · rw [if_pos hroom]
      refine does_writeInner full parent h.accepted hgThere ?_ ?_ ⟨(before ++ full :: after) :: above, ?_, ?_⟩
      · rw [hnode]
      · simpa [Inner.node, Group.keys] using hroom
      · have hroomy := h.roomy separator hitems hg hnew (by simpa [Inner.node, Group.keys, hfull] using hroom)
        rw [insertBehind_flatMap hitems, ← hfull] at hroomy
        exact hroomy
      · have hgroup : g.id ∈ innerIds ((before ++ g :: after) :: above) := mem_innerIds (by simp)
        have hgRight : g.id ≠ right := fun heq => hnew.inner (heq ▸ hgroup)
        refine Repaired.regroup ((repaired_reparent (by simp)).trans (repaired_write (.inl hgroup) ?_ ?_)) ?_
        · rw [List.mem_cons, not_or]
          exact ⟨hgRight, fun hin => (h.items_apart hin).1 hgroup⟩
        · rw [Store.reparent_of_not_mem (by simpa using hgRight), hg]
          simp
        · exact fun c hc => .inl (by simpa [innerIds_cons, hfull, Inner.insertBehind] using hc)
    · rw [if_neg hroom]
      obtain ⟨mid, hmid⟩ : ∃ mid, mid = (Inner.node full parent).keys.length / 2 := ⟨_, rfl⟩
      have hfullLength : full.rest.length = g.rest.length + 1 := by simpa [Inner.node, Group.keys] using hcount
      obtain ⟨first, head, rest, hhalves⟩ := @exists_halves full mid (by omega)
      rw [← hmid]
      apply does_bind
      refine does_getAt (hhalves .invalid).promote ?_
      have hsibling : (⟨false, (Inner.node g parent).parent, .invalid, (Inner.node full parent).keys.drop (mid + 1), [],
          (Inner.node full parent).children.drop (mid + 1)⟩ : Node) = Inner.node ⟨.invalid, head, rest⟩ parent :=
        ((hhalves .invalid).second_node parent).symm
      have hmoved : (Inner.node full parent).children.drop (mid + 1) = (⟨.invalid, head, rest⟩ : Inner).children :=
        congrArg Node.children hsibling
      have hfirstNode : { Inner.node g parent with
          keys := (Inner.node full parent).keys.take mid
          children := (Inner.node full parent).children.take (mid + 1) } = Inner.node first parent := by
        rw [(hhalves .invalid).first_node parent, hnode]
      rw [hsibling, hmoved, hfirstNode]
      have hsecondLength := (hhalves .invalid).second_length
      have hfirstLength := (hhalves .invalid).length
      simp only at hsecondLength
      apply does_bind
      refine does_allocateNode h.accepted ⟨?_, by simp [Inner.node, Group.children_length]⟩ fun id hfree hvalidId => ?_
      · simp only [Inner.node, Group.keys, List.length_map, BPlusTreeConfig.maxKeys, Bool.false_eq_true, if_false]
        omega
      rw [Store.reparent_eq_none] at hfree
      have hcut : CutAt tree s above _ before after g first ⟨id, head, rest⟩ ps qs key separator left right parent id mid :=
        ⟨h, hitems, hg, hnew, hfree, hfull ▸ hhalves id⟩
      apply does_bind
      refine does_writeInner first parent h.accepted ?_ rfl (by omega) ?_
      · rw [Store.write_of_ne hcut.id_ne.symm]
        exact hgThere
      apply does_bind
      refine does_setParents h.accepted (fun c hc => ?_) ?_
      · obtain ⟨hcg, hcid, -, -, node, hnode, -⟩ := hcut.child_cases (List.mem_append_right _ hc)
        rw [Store.write_of_ne hcg, Store.write_of_ne hcid]
        by_cases hcright : c ∈ [right]
        · exact ⟨{ node with parent := g.id }, by rw [Store.reparent_of_mem hcright, hnode]; rfl⟩
        · exact ⟨node, by rw [Store.reparent_of_not_mem hcright, hnode]⟩
      have hup := hcut.up
      have hnewItem := hcut.newItem
      rw [List.map_append, List.map_cons] at hup hnewItem
      refine (ih hup hnewItem (Nat.lt_of_succ_lt_succ hfuel)).mono ?_
      rintro _ tree' s' ⟨above', hupper, hrep⟩
      have hflat : (before ++ first :: ⟨id, head, rest⟩ :: after).flatMap Group.items =
          (before.flatMap Group.items ++ ps) ++ (key, left) :: (separator, right) :: (qs ++ after.flatMap Group.items) := by
        rw [← insertBehind_flatMap hitems, ← hfull, List.flatMap_append, List.flatMap_append, List.flatMap_cons,
          List.flatMap_cons, List.flatMap_cons, ← (hhalves id).items, List.append_assoc]
      have hrep : Repaired tree tree' (s.cut id right parent g first ⟨id, head, rest⟩) s'
          (id :: ((before ++ g :: after).map Group.item).map Prod.snd) above above' := by
        simpa [Group.item] using hrep
      refine ⟨(before ++ first :: ⟨id, head, rest⟩ :: after) :: above', ?_, ?_⟩
      · rw [← hflat]
        refine hcut.assemble hvalidId hrep hupper ?_
        simp only [List.forall_mem_cons, List.not_mem_nil, false_implies, implies_true, and_true]
        omega
      · refine Repaired.climb hcut.repaired hrep ?_ (fun c hc => mem_innerIds_above hc) ?_ ?_
        · intro c hc
          rw [item_ids] at hc
          rcases List.mem_cons.mp hc with rfl | hc
          · exact .inr hfree
          · obtain ⟨other, hother, rfl⟩ := List.mem_map.mp hc
            exact .inl (mem_innerIds hother)
        · intro c hc
          rcases List.mem_cons.mp hc with rfl | hc
          · exact ⟨hnew.inner, by simp [hright], hnew.ne_metadata h⟩
          · exact h.items_apart hc
        · intro c hc
          rw [innerIds_cons, List.mem_append] at hc
          rw [item_ids]
          rcases hc with hc | hc
          · refine .inl ?_
            have hid : first.id = g.id := by rw [(hhalves id).firstId, hfull]; rfl
            simp only [List.map_append, List.map_cons, List.mem_append, List.mem_cons, hid] at hc ⊢
            tauto
          · exact .inr (.inl hc)

end Ddb.Index
