import Ddb.Index.LevelInsert
import Ddb.Index.LevelRemove

/-!
# The leaves of a tree

The leaves hold the entries, in order, and are linked from left to right. `Stands` is the invariant of a whole tree: the
levels over its leaves, the links, the order of the entries, and how full the leaves are. The entries of all leaves
together are what the tree is for; lookup and scan are settled here.
-/

namespace Ddb.Index

open Ddb.Lib Ddb.Storage
open Ddb.Lib.Group (Sorted Routed)

abbrev Entry := KeyType × RecordId

/-- A leaf, with the key that the levels above have for it. -/
structure Leaf where
  id : PageId
  low : KeyType
  entries : List Entry

namespace Leaf

def item (l : Leaf) : Item := (l.low, l.id)

def node (l : Leaf) (parent next : PageId) : Node :=
  ⟨true, parent, next, l.entries.map Prod.fst, l.entries.map Prod.snd, []⟩

end Leaf

/-! ## Links -/

/-- The first of the leaves, or what comes behind them. -/
def firstId : List Leaf → PageId → PageId
  | [], stop => stop
  | l :: _, _ => l.id

def Linked (s : Store) : List Leaf → PageId → Prop
  | [], _ => True
  | l :: rest, stop => (∃ parent, s l.id = some (.node (l.node parent (firstId rest stop)))) ∧ Linked s rest stop

variable {tree tree' : BPlusTree} {s s' t : Store} {levels levels' : List (List Inner)} {leaves leaves' xs ys : List Leaf}
  {l a b : Leaf} {stop : PageId} {key : KeyType} {hole : Option PageId} {items : List Item} {id : PageId}

theorem linked_append : Linked s (xs ++ ys) stop ↔ Linked s xs (firstId ys stop) ∧ Linked s ys stop := by
  induction xs with
  | nil => simp [Linked]
  | cons l xs ih =>
    have hfirst : firstId (xs ++ ys) stop = firstId xs (firstId ys stop) := by cases xs <;> rfl
    rw [List.cons_append, Linked, Linked, ih, hfirst, and_assoc]

theorem Linked.congr (h : Linked s leaves stop) (hsame : ∀ l ∈ leaves, ∀ node, s l.id = some (.node node) →
    ∃ parent, t l.id = some (.node { node with parent := parent })) : Linked t leaves stop := by
  induction leaves with
  | nil => trivial
  | cons l rest ih =>
    obtain ⟨⟨parent, hnode⟩, hrest⟩ := h
    obtain ⟨parent', hnode'⟩ := hsame l List.mem_cons_self _ hnode
    exact ⟨⟨parent', hnode'⟩, ih hrest fun l hl => hsame l (List.mem_cons_of_mem _ hl)⟩

/-! ## The tree as a whole -/

/-- The pages of a tree. -/
def ownIds (tree : BPlusTree) (levels : List (List Inner)) (leaves : List Leaf) : List PageId :=
  tree.metadata :: (leaves.map Leaf.item).map Prod.snd ++ innerIds levels

/-- The invariant of a tree. One leaf may lack an entry, and then its key above may be out of date. -/
structure Stands (tree : BPlusTree) (s : Store) (hole : Option PageId) (levels : List (List Inner)) (leaves : List Leaf) :
    Prop where
  upper : Upper tree s none levels (leaves.map Leaf.item)
  linked : Linked s leaves .invalid
  valid : ∀ l ∈ leaves, l.id.isValid = true
  entries : Sorted (leaves.flatMap Leaf.entries)
  lows : ∀ l ∈ leaves.tail, hole ≠ some l.id → ∃ value rest, l.entries = (l.low, value) :: rest
  sizes : ∀ l ∈ leaves, l.entries.length ≤ tree.config.leafMaxKeys ∧
    (levels ≠ [] → (tree.config.leafMaxKeys + 1) / 2 ≤ l.entries.length + if hole = some l.id then 1 else 0)

/-- What a method of the tree does to the store: it works on its own pages and on new ones. -/
structure Changed (tree tree' : BPlusTree) (s s' : Store) (own own' : List PageId) : Prop where
  metadata : tree'.metadata = tree.metadata
  config : tree'.config = tree.config
  kept : ∀ id, s id ≠ none → id ∉ own → s' id = s id
  there : ∀ id, s id ≠ none → s' id ≠ none
  fresh : ∀ id ∈ own', id ∈ own ∨ s id = none
  raw : ∀ id page, s' id = some (.raw page) ↔ s id = some (.raw page)

theorem changed_refl (tree : BPlusTree) (s : Store) (own : List PageId) : Changed tree tree s s own own :=
  ⟨rfl, rfl, fun _ _ _ => rfl, fun _ h => h, fun _ h => .inl h, fun _ _ => Iff.rfl⟩

theorem Changed.trans {tree₁ : BPlusTree} {s₁ : Store} {own own₁ own' : List PageId} (h₁ : Changed tree tree₁ s s₁ own own₁)
    (h₂ : Changed tree₁ tree' s₁ s' own₁ own') : Changed tree tree' s s' own own' where
  metadata := h₂.metadata.trans h₁.metadata
  config := h₂.config.trans h₁.config
  kept id hthere hown := by
    rw [h₂.kept id (h₁.there id hthere) fun hin => (h₁.fresh id hin).elim hown hthere, h₁.kept id hthere hown]
  there id hthere := h₂.there id (h₁.there id hthere)
  fresh id hid := by
    rcases h₂.fresh id hid with hin | hfree
    · exact h₁.fresh id hin
    · right
      by_contra hthere
      exact h₁.there id hthere hfree
  raw id page := (h₂.raw id page).trans (h₁.raw id page)

theorem Repaired.changed {lower own own' : List PageId} (h : Repaired tree tree' s s' lower levels levels')
    (hmeta : tree.metadata ∈ own) (hlower : ∀ id ∈ lower, id ∈ own) (hinner : ∀ id ∈ innerIds levels, id ∈ own)
    (hown : ∀ id ∈ own', id ∈ own ∨ id ∈ innerIds levels') : Changed tree tree' s s' own own' where
  metadata := h.metadata
  config := h.config
  kept id hthere hnot := h.kept id hthere (fun heq => hnot (heq ▸ hmeta)) (fun hin => hnot (hlower id hin)) fun hin =>
    hnot (hinner id hin)
  there := h.there
  fresh id hid := by
    rcases hown id hid with hin | hin
    · exact .inl hin
    · exact (h.fresh id hin).imp_left (hinner id)
  raw := h.raw

theorem changed_write {own own' : List PageId} {node : Node} (hid : id ∈ own ∨ s id = none)
    (hraw : ∀ page, s id ≠ some (.raw page)) (hown : ∀ other ∈ own', other ∈ own ∨ other = id ∧ s id = none) :
    Changed tree tree s (s.write id node) own own' := by
  refine ⟨rfl, rfl, fun other hthere hnot => ?_, fun other hthere => ?_, fun other hin => ?_, fun other page => ?_⟩
  · refine Store.write_of_ne (fun heq => ?_) _
    subst heq
    exact hid.elim hnot hthere
  · by_cases heq : other = id
    · simp [heq]
    · rwa [Store.write_of_ne heq]
  · rcases hown other hin with hin | ⟨rfl, hfree⟩
    · exact .inl hin
    · exact .inr hfree
  · by_cases heq : other = id
    · subst heq
      simp [hraw page]
    · rw [Store.write_of_ne heq]

/-! ## Changes of the leaves -/

/-- The levels over the same items in another store. -/
theorem Upper.congr (h : Upper tree s hole levels items) (hsame : ∀ id ∈ tree.metadata :: innerIds levels, t id = s id)
    (hparents : ∀ id ∈ items.map Prod.snd, ∀ parent, HasParent s id parent → HasParent t id parent) :
    Upper tree t hole levels items where
  accepted := h.accepted
  header := (hsame _ List.mem_cons_self).trans h.header
  tower := h.tower.congr (fun id hid => hsame id (List.mem_cons_of_mem _ hid)) hparents
  ids := h.ids
  valid := h.valid
  filled := h.filled

/-- Items have been written, and keep their parents. -/
structure ItemsWritten (tree : BPlusTree) (s t : Store) (levels : List (List Inner)) (items : List Item) : Prop where
  same : ∀ id ∈ tree.metadata :: innerIds levels, t id = s id
  parents : ∀ id ∈ items.map Prod.snd, ∀ parent, HasParent s id parent → HasParent t id parent

theorem itemsWritten_refl (tree : BPlusTree) (s : Store) (levels : List (List Inner)) (items : List Item) :
    ItemsWritten tree s s levels items := ⟨fun _ _ => rfl, fun _ _ _ h => h⟩

theorem ItemsWritten.write {node : Node} (ht : ItemsWritten tree s t levels items) (h : Upper tree s hole levels items)
    (hid : id ∈ items.map Prod.snd) (hparent : HasParent s id node.parent) :
    ItemsWritten tree s (t.write id node) levels items := by
  obtain ⟨hinner, -, hmeta⟩ := h.items_apart hid
  refine ⟨fun other hother => ?_, fun other hother parent hold => ?_⟩
  · have hne : other ≠ id := by
      rintro rfl
      exact (List.mem_cons.mp hother).elim hmeta hinner
    rw [Store.write_of_ne hne]
    exact ht.same other hother
  · by_cases heq : other = id
    · subst heq
      exact ⟨node, Store.write_self _ _ _, hparent.unique hold⟩
    · obtain ⟨content, hcontent, hup⟩ := ht.parents other hother parent hold
      exact ⟨content, by rw [Store.write_of_ne heq]; exact hcontent, hup⟩

/-- And then the parent of two of them. -/
theorem ItemsWritten.parentWritten {q q' : Inner} {parent : PageId} (ht : ItemsWritten tree s t levels items)
    (h : Upper tree s hole levels items) (hq : q.id ∈ innerIds levels) (hnode : s q.id = some (.node (Inner.node q parent))) :
    ParentWritten tree s (t.write q.id (Inner.node q' parent)) levels items q q' := by
  refine ⟨⟨parent, hnode, Store.write_self _ _ _⟩, fun id hid hne => ?_, fun id hid p hold => ?_⟩
  · rw [Store.write_of_ne hne]
    exact ht.same id hid
  · have hne : id ≠ q.id := fun heq => (h.items_apart hid).1 (heq ▸ hq)
    obtain ⟨content, hcontent, hup⟩ := ht.parents id hid p hold
    exact ⟨content, by rw [Store.write_of_ne hne]; exact hcontent, hup⟩

/-- Without a level there is one leaf only. -/
theorem Stands.eq_singleton (h : Stands tree s hole [] (xs ++ l :: ys)) : xs = [] ∧ ys = [] ∧ l.id = tree.root := by
  obtain ⟨⟨low, hitems⟩, -⟩ := h.upper.tower
  cases xs with
  | nil =>
    obtain ⟨hitem, hys⟩ : l.item = (low, tree.root) ∧ ys = [] := by simpa using hitems
    exact ⟨rfl, hys, congrArg Prod.snd hitem⟩
  | cons x xs => simp at hitems

theorem mem_own_leaf (hl : l ∈ leaves) : l.id ∈ ownIds tree levels leaves := by
  simp only [ownIds, List.mem_append, List.mem_cons]
  exact .inl (.inr (List.mem_map_of_mem (List.mem_map_of_mem hl)))

theorem mem_own_of_item (hid : id ∈ (leaves.map Leaf.item).map Prod.snd) : id ∈ ownIds tree levels leaves := by
  simp only [ownIds, List.mem_append, List.mem_cons]
  exact .inl (.inr hid)

theorem mem_own_inner (hid : id ∈ innerIds levels) : id ∈ ownIds tree levels leaves := by
  simp only [ownIds, List.mem_append, List.mem_cons]
  exact .inr hid

/-- Some leaves next to each other give way to others, and the rest stays. -/
theorem Stands.segment {hole' : Option PageId} {mid mid' : List Leaf} (h : Stands tree s hole levels (xs ++ l :: mid ++ ys))
    (hconfig : tree'.config = tree.config) (ha : a.id = l.id)
    (hupper : Upper tree' s' none levels' ((xs ++ a :: mid' ++ ys).map Leaf.item))
    (hlinked : Linked s' (a :: mid') (firstId ys .invalid))
    (hothers : ∀ other ∈ xs ++ ys, hole ≠ some other.id ∧ hole' ≠ some other.id ∧ ∀ node, s other.id = some (.node node) →
      ∃ parent, s' other.id = some (.node { node with parent := parent }))
    (hvalid : ∀ new ∈ mid', new.id.isValid = true) (hentries : Sorted ((xs ++ a :: mid' ++ ys).flatMap Leaf.entries))
    (hlow : xs ≠ [] → hole' ≠ some a.id → ∃ value rest, a.entries = (a.low, value) :: rest)
    (hlows : ∀ new ∈ mid', hole' ≠ some new.id → ∃ value rest, new.entries = (new.low, value) :: rest)
    (hsizes : ∀ new ∈ a :: mid', new.entries.length ≤ tree.config.leafMaxKeys ∧
      (levels' ≠ [] → (tree.config.leafMaxKeys + 1) / 2 ≤ new.entries.length + if hole' = some new.id then 1 else 0)) :
    Stands tree' s' hole' levels' (xs ++ a :: mid' ++ ys) := by
  have hleft : ∀ other ∈ xs, other ∈ xs ++ ys := fun other => List.mem_append_left _
  have hright : ∀ other ∈ ys, other ∈ xs ++ ys := fun other => List.mem_append_right _
  have hold : ∀ other ∈ xs ++ ys, other ∈ xs ++ l :: mid ++ ys := by
    intro other hother
    simp only [List.mem_append, List.mem_cons] at hother ⊢
    tauto
  have hcases : ∀ new ∈ xs ++ a :: mid' ++ ys, new ∈ a :: mid' ∨ new ∈ xs ++ ys := by
    intro new hnew
    simp only [List.mem_append, List.mem_cons] at hnew ⊢
    tauto
  refine ⟨hupper, ?_, fun new hnew => ?_, hentries, fun new hnew hne => ?_, fun new hnew => ?_⟩
  · have hlinks := h.linked
    rw [linked_append, linked_append] at hlinks ⊢
    have hfirst : firstId (a :: mid') (firstId ys .invalid) = firstId (l :: mid) (firstId ys .invalid) := ha
    rw [hfirst]
    refine ⟨⟨hlinks.1.1.congr fun other hother => ?_, hlinked⟩, hlinks.2.congr fun other hother => ?_⟩
    · exact (hothers other (hleft other hother)).2.2
    · exact (hothers other (hright other hother)).2.2
  · rcases hcases new hnew with hnew | hnew
    · rcases List.mem_cons.mp hnew with rfl | hnew
      · rw [ha]
        exact h.valid l (by simp)
      · exact hvalid new hnew
    · exact h.valid new (hold new hnew)
  · have htail : (new = a ∧ xs ≠ []) ∨ new ∈ mid' ∨ (new ∈ xs ++ ys ∧ new ∈ (xs ++ l :: mid ++ ys).tail) := by
      cases xs with
      | nil =>
        simp only [List.nil_append, List.cons_append, List.tail_cons, List.mem_append] at hnew ⊢
        tauto
      | cons x xs =>
        simp only [List.cons_append, List.tail_cons, List.mem_append, List.mem_cons] at hnew ⊢
        simp only [ne_eq, reduceCtorEq, not_false_eq_true, and_true]
        tauto
    rcases htail with ⟨rfl, hxs⟩ | hnew | ⟨hnew, htail⟩
    · exact hlow hxs hne
    · exact hlows new hnew hne
    · exact h.lows new htail (hothers new hnew).1
  · rw [hconfig]
    rcases hcases new hnew with hnew | hnew
    · exact hsizes new hnew
    · have hsize := h.sizes new (hold new hnew)
      refine ⟨hsize.1, fun _ => ?_⟩
      have hlevels : levels ≠ [] := by
        rintro rfl
        rw [List.append_assoc, List.cons_append] at h
        obtain ⟨hxs, hys, -⟩ := h.eq_singleton
        rw [hxs, (List.append_eq_nil_iff.mp hys).2] at hnew
        simp at hnew
      have hmin := hsize.2 hlevels
      rw [if_neg (hothers new hnew).1] at hmin
      rw [if_neg (hothers new hnew).2.1]
      exact hmin

theorem does_writeLeaf {Q : Unit → BPlusTree → Store → Prop} {node : Node} (l : Leaf) (parent next : PageId)
    (haccepted : tree.config.Accepted) (hthere : s id ≠ none) (hnode : node = l.node parent next)
    (hsize : l.entries.length ≤ tree.config.leafMaxKeys) (h : Q () tree (s.write id (l.node parent next))) :
    (BPlusTree.writeNode id node).Does tree s Q := by
  subst hnode
  refine does_writeNode haccepted hthere ⟨?_, ?_⟩ h
  · simpa [Leaf.node, BPlusTreeConfig.maxKeys] using hsize
  · simp [Leaf.node]

/-- The tree stands again, with these entries. -/
def Turned (tree tree' : BPlusTree) (s s' : Store) (levels : List (List Inner)) (leaves : List Leaf) (entries : List Entry) : Prop :=
  ∃ levels' leaves', Stands tree' s' none levels' leaves' ∧ leaves'.flatMap Leaf.entries = entries ∧
    Changed tree tree' s s' (ownIds tree levels leaves) (ownIds tree' levels' leaves')

/-- Some leaves have been written anew, and then the levels above have been repaired. -/
theorem Stands.turned {mid mid' : List Leaf} {own : List PageId} {levels₁ : List (List Inner)}
    (h : Stands tree s hole levels (xs ++ l :: mid ++ ys)) (hhole : ∀ other ∈ xs ++ ys, hole ≠ some other.id) (ha : a.id = l.id)
    (hsame : ∀ other ∈ xs ++ ys, t other.id = s other.id) (hlinked : Linked t (a :: mid') (firstId ys .invalid))
    (hchanged : Changed tree tree s t (ownIds tree levels (xs ++ l :: mid ++ ys)) own)
    (hown : ∀ id ∈ ownIds tree levels₁ (xs ++ a :: mid' ++ ys), id ∈ own)
    (hrep : Repaired tree tree' t s' (((xs ++ a :: mid' ++ ys).map Leaf.item).map Prod.snd) levels₁ levels')
    (hupper : Upper tree' s' none levels' ((xs ++ a :: mid' ++ ys).map Leaf.item))
    (hvalid : ∀ new ∈ mid', new.id.isValid = true) (hentries : Sorted ((xs ++ a :: mid' ++ ys).flatMap Leaf.entries))
    (hlow : xs ≠ [] → ∃ value rest, a.entries = (a.low, value) :: rest)
    (hlows : ∀ new ∈ mid', ∃ value rest, new.entries = (new.low, value) :: rest)
    (hsizes : ∀ new ∈ a :: mid', new.entries.length ≤ tree.config.leafMaxKeys ∧
      (levels' ≠ [] → (tree.config.leafMaxKeys + 1) / 2 ≤ new.entries.length)) :
    Turned tree tree' s s' levels (xs ++ l :: mid ++ ys) ((xs ++ a :: mid' ++ ys).flatMap Leaf.entries) := by
  have hitem : ∀ leaf ∈ xs ++ a :: mid' ++ ys, leaf.id ∈ ((xs ++ a :: mid' ++ ys).map Leaf.item).map Prod.snd := fun leaf hleaf =>
    List.mem_map_of_mem (List.mem_map_of_mem hleaf)
  refine ⟨levels', xs ++ a :: mid' ++ ys, ?_, rfl, ?_⟩
  · refine h.segment hrep.config ha hupper (hlinked.congr fun new hnew => hrep.children new.id (hitem new ?_))
      (fun other hother => ⟨hhole other hother, by simp, fun node hold => ?_⟩) hvalid hentries (fun hne _ => hlow hne)
      (fun new hnew _ => hlows new hnew) (by simpa using hsizes)
    · simp only [List.mem_append, List.mem_cons] at hnew ⊢
      tauto
    · refine hrep.children other.id (hitem other ?_) node ((hsame other hother).trans hold)
      simp only [List.mem_append, List.mem_cons] at hother ⊢
      tauto
  · refine hchanged.trans (hrep.changed (hown _ (by simp [ownIds])) (fun id hid => hown id (mem_own_of_item hid))
      (fun id hid => hown id (mem_own_inner hid)) fun id hid => ?_)
    simp only [ownIds, hrep.metadata, List.mem_append] at hid
    rcases hid with hid | hid
    · exact .inl (hown id (by simp only [ownIds, List.mem_append]; exact .inl hid))
    · exact .inr hid

/-! ## Where a key belongs -/

namespace Stands

/-- The keys by which a leaf is found are in order. -/
theorem items_sorted (h : Stands tree s none levels leaves) : Sorted (leaves.map Leaf.item).tail := by
  cases leaves with
  | nil => exact .nil
  | cons first leaves =>
    have hentries := h.entries
    have hlows := h.lows
    rw [List.flatMap_cons, Group.sorted_append] at hentries
    simp only [List.tail_cons, ne_eq, reduceCtorEq, not_false_eq_true, forall_const] at hlows
    replace hentries := hentries.2.1
    change Sorted (leaves.map Leaf.item)
    clear h
    induction leaves with
    | nil => exact .nil
    | cons l leaves ih =>
      rw [List.flatMap_cons, Group.sorted_append] at hentries
      refine List.pairwise_cons.mpr ⟨fun item hitem => ?_, ih (fun l hl => hlows l (List.mem_cons_of_mem _ hl)) hentries.2.1⟩
      obtain ⟨other, hother, rfl⟩ := List.mem_map.mp hitem
      obtain ⟨value, rest, hl⟩ := hlows l List.mem_cons_self
      obtain ⟨value', rest', hother'⟩ := hlows other (List.mem_cons_of_mem _ hother)
      exact hentries.2.2 (l.low, value) (by simp [hl]) (other.low, value')
        (List.mem_flatMap.mpr ⟨other, hother, by simp [hother']⟩)

theorem low_of_ne_nil (h : Stands tree s none levels (xs ++ l :: ys)) (hne : xs ≠ []) : ∃ value rest, l.entries = (l.low, value) :: rest :=
  h.lows l (by rw [List.tail_append_of_ne_nil hne]; simp) (by simp)

/-- The entries to the left of the leaf where a key belongs are below it. -/
theorem lt_of_left (h : Stands tree s none levels (xs ++ l :: ys)) (hrouted : Routed key (xs.map Leaf.item) l.item (ys.map Leaf.item))
    {e : Entry} (he : e ∈ xs.flatMap Leaf.entries) : e.1 < key := by
  have hne : xs ≠ [] := by
    rintro rfl
    simp at he
  obtain ⟨value, rest, hl⟩ := h.low_of_ne_nil hne
  have hsorted := h.entries
  rw [List.flatMap_append, Group.sorted_append] at hsorted
  have hlow : l.low ≤ key := hrouted.1 (by simpa using hne)
  exact lt_of_lt_of_le (hsorted.2.2 e he (l.low, value) (by simp [hl])) hlow

/-- Those to its right are above. -/
theorem lt_of_right (h : Stands tree s none levels (xs ++ l :: ys)) (hrouted : Routed key (xs.map Leaf.item) l.item (ys.map Leaf.item))
    {e : Entry} (he : e ∈ ys.flatMap Leaf.entries) : key < e.1 := by
  obtain ⟨other, hother, hin⟩ := List.mem_flatMap.mp he
  have hlow : key < other.low := hrouted.2 other.item (List.mem_map_of_mem hother)
  obtain ⟨value, rest, hentries⟩ := h.lows other (by cases xs <;> simp [hother]) (by simp)
  have hsorted := h.entries
  obtain ⟨first, second, rfl⟩ := List.append_of_mem hother
  simp only [List.flatMap_append, List.flatMap_cons, Group.sorted_append] at hsorted
  rw [hentries] at hin
  rcases List.mem_cons.mp hin with rfl | hin
  · exact hlow
  · have horder := hsorted.2.1.2.1.2.1.1
    rw [hentries] at horder
    exact lt_trans hlow (List.rel_of_pairwise_cons horder hin)

/-- An entry with the key is in the leaf where the key belongs, or nowhere. -/
theorem mem_entries_iff (h : Stands tree s none levels (xs ++ l :: ys))
    (hrouted : Routed key (xs.map Leaf.item) l.item (ys.map Leaf.item)) {value : RecordId} :
    (key, value) ∈ (xs ++ l :: ys).flatMap Leaf.entries ↔ (key, value) ∈ l.entries := by
  rw [List.flatMap_append, List.flatMap_cons, List.mem_append, List.mem_append]
  constructor
  · rintro (hin | hin | hin)
    · exact absurd (h.lt_of_left hrouted hin) (lt_irrefl key)
    · exact hin
    · exact absurd (h.lt_of_right hrouted hin) (lt_irrefl key)
  · exact fun hin => .inr (.inl hin)

end Stands

/-! ## Lookup -/

theorem Tower.items_ne_nil {root : PageId} (h : Tower s root levels items) : items ≠ [] := by
  induction levels generalizing items with
  | nil =>
    obtain ⟨⟨low, rfl⟩, -⟩ := h
    simp
  | cons level above ih =>
    obtain ⟨rfl, -, habove⟩ := h
    exact Group.flatMap_ne_nil fun hnil => ih habove (by rw [hnil, List.map_nil])

theorem Tower.length_le {root : PageId} (h : Tower s root levels items) : levels.length ≤ (innerIds levels).length := by
  induction levels generalizing items with
  | nil => exact Nat.zero_le _
  | cons level above ih =>
    have hpos : 0 < (level.map Group.item).length := List.length_pos_iff.mpr h.2.2.items_ne_nil
    have hle := ih h.2.2
    rw [innerIds_cons, List.length_append, List.length_cons, List.length_map]
    rw [List.length_map] at hpos
    omega

/-- The levels are fewer than the turns of a loop. -/
theorem Upper.length_lt (h : Upper tree s hole levels items) : levels.length < 2 ^ 64 :=
  Nat.lt_of_le_of_lt h.tower.length_le (PageId.length_lt_of_nodup h.ids.of_append_right h.valid)

/-- From the root down, the loop comes to the item where the key belongs. -/
theorem does_findLeafLoop (h : Upper tree s hole levels items) (hsorted : Sorted items.tail) (fuel : Nat)
    {Q : PageId → BPlusTree → Store → Prop}
    (hQ : ∀ ps x qs, items = ps ++ x :: qs → Routed key ps x qs → (BPlusTree.findLeafLoop key fuel x.2).Does tree s Q) :
    (BPlusTree.findLeafLoop key (fuel + levels.length) tree.root).Does tree s Q := by
  induction levels generalizing items fuel with
  | nil =>
    obtain ⟨⟨low, rfl⟩, -⟩ := h.tower
    exact hQ [] (low, tree.root) [] rfl ⟨fun hne => absurd rfl hne, by simp⟩
  | cons level above ih =>
    obtain ⟨hitems, hlevel, -⟩ := h.tower
    subst hitems
    have hfuel : fuel + (level :: above).length = fuel + 1 + above.length := by
      rw [List.length_cons]
      omega
    rw [hfuel]
    refine ih h.up (Group.sorted_item_tail hsorted) (fuel + 1) fun ps x qs hsplit hrouted => ?_
    obtain ⟨before, tail, rfl, rfl, htail⟩ := List.map_eq_append_iff.mp hsplit
    obtain ⟨g, after, rfl, rfl, rfl⟩ := List.map_eq_cons_iff.mp htail
    obtain ⟨parent, hnode⟩ := (hlevel g (by simp)).node
    obtain ⟨ps, x, qs, hg, hlength, hin⟩ := Group.exists_routed (Group.sorted_rest hsorted) key
    have hplace : upperBound (Inner.node g parent).keys key = ps.length := by
      rw [hlength, upperBound, Inner.node]
      congr!
    have hchild : (Inner.node g parent).children[upperBound (Inner.node g parent).keys key]? = some x.2 := by
      change (g.items.map Prod.snd)[upperBound (Inner.node g parent).keys key]? = some x.2
      rw [hplace, hg]
      simp
    rw [BPlusTree.findLeafLoop]
    apply does_bind
    refine does_readNode (n := Inner.node g parent) hnode fun _ => ?_
    rw [if_neg (by simp [Inner.node])]
    apply does_bind
    refine does_getAt hchild ?_
    refine hQ _ x _ ?_ (Group.Routed.flatMap hsorted hg hrouted hin)
    rw [List.flatMap_append, List.flatMap_cons, hg]
    simp

namespace Stands

theorem node_of_mem (h : Stands tree s none levels (xs ++ l :: ys)) :
    ∃ parent, s l.id = some (.node (l.node parent (firstId ys .invalid))) := (linked_append.mp h.linked).2.1

theorem does_findLeaf (h : Stands tree s none levels leaves) (key : KeyType) {Q : PageId → BPlusTree → Store → Prop}
    (hQ : ∀ xs l ys, leaves = xs ++ l :: ys → Routed key (xs.map Leaf.item) l.item (ys.map Leaf.item) → Q l.id tree s) :
    (BPlusTree.findLeaf key).Does tree s Q := by
  have hlt := h.upper.length_lt
  obtain ⟨fuel, hfuel⟩ : ∃ fuel, 2 ^ 64 = fuel + 1 + levels.length := ⟨2 ^ 64 - 1 - levels.length, by omega⟩
  apply does_bind
  apply does_get
  rw [hfuel]
  refine does_findLeafLoop h.upper h.items_sorted (fuel + 1) fun ps x qs hsplit hrouted => ?_
  obtain ⟨xs, tail, rfl, rfl, htail⟩ := List.map_eq_append_iff.mp hsplit
  obtain ⟨l, ys, rfl, rfl, rfl⟩ := List.map_eq_cons_iff.mp htail
  obtain ⟨parent, hnode⟩ := h.node_of_mem
  rw [BPlusTree.findLeafLoop]
  apply does_bind
  refine does_readNode (n := l.node parent (firstId ys .invalid)) hnode fun _ => ?_
  rw [if_pos (by rfl)]
  exact does_pure (hQ xs l ys rfl hrouted)

end Stands

/-- What stands at a place. -/
theorem key_at_place {ps qs entries : List Entry} (hsplit : entries = ps ++ qs) :
    (entries.map Prod.fst)[ps.length]? = qs.head?.map Prod.fst := by
  subst hsplit
  rw [List.map_append, List.getElem?_append_right (by simp)]
  cases qs <;> simp

/-- Where the code looks for a key in a leaf, the key is found or belongs. -/
theorem exists_place {entries : List Entry} (hsorted : Sorted entries) (key : KeyType) :
    (∃ ps value qs, entries = ps ++ (key, value) :: qs ∧ lowerBound (entries.map Prod.fst) key = ps.length ∧
      (entries.map Prod.fst)[ps.length]? = some key ∧ (∀ p ∈ ps, p.1 < key) ∧ ∀ q ∈ qs, key < q.1) ∨
    ∃ ps qs, entries = ps ++ qs ∧ lowerBound (entries.map Prod.fst) key = ps.length ∧
      (entries.map Prod.fst)[ps.length]? ≠ some key ∧ (∀ p ∈ ps, p.1 < key) ∧ ∀ q ∈ qs, key < q.1 := by
  obtain ⟨ps, qs, hsplit, hlength, hps, hqs⟩ := Group.exists_cut hsorted key
  have hplace : lowerBound (entries.map Prod.fst) key = ps.length := by rw [hlength, lowerBound]
  rw [hsplit, Group.sorted_append] at hsorted
  by_cases hfound : qs.head?.map Prod.fst = some key
  · left
    cases qs with
    | nil => simp at hfound
    | cons e qs =>
      obtain ⟨k, value⟩ := e
      obtain rfl : k = key := by simpa using hfound
      exact ⟨ps, value, qs, hsplit, hplace, by rw [key_at_place hsplit, hfound], hps, (List.pairwise_cons.mp hsorted.2.1).1⟩
  · right
    refine ⟨ps, qs, hsplit, hplace, by rwa [key_at_place hsplit], hps, fun q hq => ?_⟩
    cases qs with
    | nil => simp at hq
    | cons e qs =>
      have hne : key ≠ e.1 := fun heq => hfound (by simp [heq])
      have hlt := lt_of_le_of_ne (hqs e List.mem_cons_self) hne
      rcases List.mem_cons.mp hq with rfl | hq
      · exact hlt
      · exact lt_trans hlt ((List.pairwise_cons.mp hsorted.2.1).1 q hq)

/-- The value of a key at its place. -/
theorem eq_of_mem_place {ps qs : List Entry} {value other : RecordId} (hps : ∀ p ∈ ps, p.1 < key) (hqs : ∀ q ∈ qs, key < q.1)
    (hin : (key, other) ∈ ps ++ (key, value) :: qs) : other = value := by
  rcases List.mem_append.mp hin with hin | hin
  · exact absurd (hps _ hin) (lt_irrefl _)
  · rcases List.mem_cons.mp hin with heq | hin
    · exact (Prod.mk.inj heq).2
    · exact absurd (hqs _ hin) (lt_irrefl _)

theorem not_mem_place {ps qs : List Entry} {other : RecordId} (hps : ∀ p ∈ ps, p.1 < key) (hqs : ∀ q ∈ qs, key < q.1) :
    (key, other) ∉ ps ++ qs := by
  intro hin
  rcases List.mem_append.mp hin with hin | hin
  · exact lt_irrefl _ (hps _ hin)
  · exact lt_irrefl _ (hqs _ hin)

namespace Stands

theorem leaf_sorted (h : Stands tree s hole levels (xs ++ l :: ys)) : Sorted l.entries := by
  have hsorted := h.entries
  rw [List.flatMap_append, List.flatMap_cons, Group.sorted_append, Group.sorted_append] at hsorted
  exact hsorted.2.1.1

theorem does_getValue (h : Stands tree s none levels leaves) (key : KeyType) {Q : Option RecordId → BPlusTree → Store → Prop}
    (hQ : ∀ found, (∀ value, found = some value ↔ (key, value) ∈ leaves.flatMap Leaf.entries) → Q found tree s) :
    (BPlusTree.getValue key).Does tree s Q := by
  apply does_bind
  refine h.does_findLeaf key ?_
  rintro xs l ys rfl hrouted
  obtain ⟨parent, hnode⟩ := h.node_of_mem
  have hkeys : (l.node parent (firstId ys .invalid)).keys = l.entries.map Prod.fst := rfl
  apply does_bind
  refine does_readNode hnode fun _ => ?_
  dsimp only
  rw [hkeys]
  rcases exists_place h.leaf_sorted key with
    ⟨ps, value, qs, hsplit, hplace, hfound, hps, hqs⟩ | ⟨ps, qs, hsplit, hplace, hfound, hps, hqs⟩
  · rw [hplace, if_pos hfound]
    apply does_bind
    refine does_getAt (a := value) ?_ (does_pure (hQ (some value) fun other => ?_))
    · change (l.entries.map Prod.snd)[ps.length]? = some value
      rw [hsplit]
      simp
    · rw [h.mem_entries_iff hrouted, hsplit]
      constructor
      · intro heq
        simp [Option.some.inj heq]
      · intro hin
        rw [eq_of_mem_place hps hqs hin]
  · rw [hplace, if_neg hfound]
    refine does_pure (hQ none fun other => ?_)
    rw [h.mem_entries_iff hrouted, hsplit]
    exact iff_of_false (by simp) (not_mem_place hps hqs)

end Stands

/-! ## Scans -/

def inRange (low high : KeyType) (e : Entry) : Bool := decide (low ≤ e.1 ∧ e.1 ≤ high)

theorem scanEntries_eq {low high : KeyType} {entries : List Entry} (hle : low ≤ high) (hsorted : Sorted entries) :
    BPlusTree.scanEntries low high entries = (entries.filter (inRange low high), entries.any fun e => decide (high < e.1)) := by
  induction entries with
  | nil => rfl
  | cons e rest ih =>
    obtain ⟨hfirst, hrest⟩ := List.pairwise_cons.mp hsorted
    rw [BPlusTree.scanEntries, ih hrest, List.filter_cons, List.any_cons]
    by_cases hbelow : e.1 < low
    · have hin : inRange low high e = false := by simp [inRange, hbelow]
      have habove : ¬ high < e.1 := not_lt_of_ge (le_trans (le_of_lt hbelow) hle)
      rw [if_pos hbelow, hin, if_neg Bool.false_ne_true, decide_eq_false habove, Bool.false_or]
    · rw [if_neg hbelow]
      by_cases habove : high < e.1
      · have hin : inRange low high e = false := by simp [inRange, habove]
        have hnone : rest.filter (inRange low high) = [] := by
          rw [List.filter_eq_nil_iff]
          intro other hother
          simp [inRange, lt_trans habove (hfirst other hother)]
        rw [if_pos habove, hin, if_neg Bool.false_ne_true, hnone, decide_eq_true habove, Bool.true_or]
      · have hin : inRange low high e = true := by simp [inRange, le_of_not_gt hbelow, le_of_not_gt habove]
        rw [if_neg habove, hin, if_pos rfl, decide_eq_false habove, Bool.false_or]

theorem does_scanLoop (leaves : List Leaf) {low high : KeyType} (hle : low ≤ high) (hlinked : Linked s leaves .invalid)
    (hvalid : ∀ l ∈ leaves, l.id.isValid = true) (hsorted : Sorted (leaves.flatMap Leaf.entries)) {fuel : Nat}
    (hfuel : leaves.length < fuel) {Q : List Entry → BPlusTree → Store → Prop}
    (hQ : Q ((leaves.flatMap Leaf.entries).filter (inRange low high)) tree s) :
    (BPlusTree.scanLoop low high fuel (firstId leaves .invalid)).Does tree s Q := by
  induction leaves generalizing fuel Q with
  | nil =>
    obtain ⟨fuel, rfl⟩ := Nat.exists_eq_add_one_of_ne_zero (Nat.ne_of_gt hfuel)
    rw [BPlusTree.scanLoop, if_pos (by rfl)]
    exact does_pure hQ
  | cons l rest ih =>
    obtain ⟨fuel, rfl⟩ := Nat.exists_eq_add_one_of_ne_zero (Nat.ne_of_gt (Nat.zero_lt_of_lt hfuel))
    obtain ⟨⟨parent, hnode⟩, hrest⟩ := hlinked
    rw [List.flatMap_cons, Group.sorted_append] at hsorted
    rw [List.flatMap_cons, List.filter_append] at hQ
    have hzip : (l.node parent (firstId rest .invalid)).keys.zip (l.node parent (firstId rest .invalid)).values = l.entries :=
      List.zip_map'.trans (List.map_id _)
    have hentries := scanEntries_eq hle hsorted.1
    rw [BPlusTree.scanLoop, if_neg (by simp [firstId, hvalid l List.mem_cons_self])]
    apply does_bind
    refine does_readNode (p := firstId (l :: rest) .invalid) hnode fun _ => ?_
    dsimp only
    rw [hzip, hentries]
    by_cases hstop : (l.entries.any fun e => decide (high < e.1)) = true
    · -- What follows is above the range as well.
      obtain ⟨e, he, habove⟩ := List.any_eq_true.mp hstop
      have hnone : (rest.flatMap Leaf.entries).filter (inRange low high) = [] := by
        rw [List.filter_eq_nil_iff]
        intro other hother
        simp [inRange, lt_trans (of_decide_eq_true habove) (hsorted.2.2 e he other hother)]
      rw [if_pos hstop]
      rw [hnone, List.append_nil] at hQ
      exact does_pure hQ
    · rw [if_neg hstop]
      apply does_bind
      refine ih hrest (fun l hl => hvalid l (List.mem_cons_of_mem _ hl)) hsorted.2.1 (Nat.lt_of_succ_lt_succ hfuel) ?_
      exact does_pure hQ

theorem Stands.does_scan (h : Stands tree s none levels leaves) (low high : KeyType) {Q : List Entry → BPlusTree → Store → Prop}
    (hQ : Q ((leaves.flatMap Leaf.entries).filter (inRange low high)) tree s) : (BPlusTree.scan low high).Does tree s Q := by
  rw [BPlusTree.scan]
  by_cases hempty : high < low
  · rw [if_pos hempty]
    have hnone : (leaves.flatMap Leaf.entries).filter (inRange low high) = [] := by
      rw [List.filter_eq_nil_iff]
      rintro e - hin
      obtain ⟨hlow, hhigh⟩ := of_decide_eq_true hin
      exact absurd (le_trans hlow hhigh) (not_le_of_gt hempty)
    rw [hnone] at hQ
    exact does_pure hQ
  · rw [if_neg hempty]
    apply does_bind
    refine h.does_findLeaf low ?_
    rintro xs l ys rfl hrouted
    have hsorted := h.entries
    have hlength : (l :: ys).length < 2 ^ 64 := by
      have hids := h.upper.ids.of_append_left
      rw [List.map_append, List.map_append] at hids
      have hlt := PageId.length_lt_of_nodup hids.of_append_right fun id hid => by
        obtain ⟨item, hitem, rfl⟩ := List.mem_map.mp hid
        obtain ⟨other, hother, rfl⟩ := List.mem_map.mp hitem
        exact h.valid other (List.mem_append_right _ hother)
      simpa using hlt
    have hleft : (xs.flatMap Leaf.entries).filter (inRange low high) = [] := by
      rw [List.filter_eq_nil_iff]
      rintro e he hin
      exact absurd (of_decide_eq_true hin).1 (not_le_of_gt (h.lt_of_left hrouted he))
    rw [List.flatMap_append, List.filter_append, hleft, List.nil_append] at hQ
    rw [List.flatMap_append, Group.sorted_append] at hsorted
    exact does_scanLoop (l :: ys) (le_of_not_gt hempty) (linked_append.mp h.linked).2
      (fun other hother => h.valid other (List.mem_append_right _ hother)) hsorted.2.1 hlength hQ

end Ddb.Index
