import Ddb.Index.Leaves

/-!
# Insertion

An insertion puts the entry into the leaf where its key belongs. A leaf that is full is cut in two, and the new leaf goes into
the level above as a new item.
-/

namespace Ddb.Index

open Ddb.Lib Ddb.Storage
open Ddb.Lib.Group (Sorted Routed)

variable {tree tree' : BPlusTree} {s s' t : Store} {levels levels' : List (List Inner)} {leaves leaves' xs ys : List Leaf}
  {l a b : Leaf} {key : KeyType} {hole : Option PageId}

/-- A leaf is written, and keeps its parent. -/
theorem Upper.write_item {items : List Item} (h : Upper tree s hole levels items) {id : PageId} (hid : id ∈ items.map Prod.snd)
    {old : Node} (new : Node) (hold : s id = some (.node old)) (hparent : new.parent = old.parent) :
    Upper tree (s.write id new) hole levels items := by
  have hwritten := (itemsWritten_refl tree s levels items).write h hid ⟨old, hold, hparent.symm⟩
  exact h.congr hwritten.same hwritten.parents

/-- A page that was free is written. -/
theorem Upper.write_fresh {items : List Item} (h : Upper tree s hole levels items) {id : PageId} (hfree : s id = none)
    (node : Node) : Upper tree (s.write id node) hole levels items := by
  have hne : ∀ other, s other ≠ none → other ≠ id := fun other hthere heq => hthere (heq ▸ hfree)
  refine h.congr (fun other hother => Store.write_of_ne (hne other ?_) _) fun other hother parent hold => ?_
  · rcases List.mem_cons.mp hother with rfl | hin
    · simp [h.header]
    · obtain ⟨parent, hparent⟩ := h.tower.inner_node hin
      exact hparent.ne_none
  · obtain ⟨content, hcontent, hup⟩ := hold
    exact ⟨content, by rw [Store.write_of_ne (hne other (by simp [hcontent]))]; exact hcontent, hup⟩

theorem insertIdx_at {α : Type} (ps qs : List α) (a : α) : (ps ++ qs).insertIdx ps.length a = ps ++ a :: qs := by
  induction ps with
  | nil => rfl
  | cons p ps ih => simp [List.insertIdx_succ_cons, ih]

namespace Stands

/-- Between the smaller and the larger entries there is room for the key. -/
theorem sorted_insert {ps qs : List Entry} (h : Stands tree s none levels (xs ++ l :: ys)) (value : RecordId)
    (hrouted : Routed key (xs.map Leaf.item) l.item (ys.map Leaf.item)) (hsplit : l.entries = ps ++ qs)
    (hps : ∀ p ∈ ps, p.1 < key) (hqs : ∀ q ∈ qs, key < q.1) :
    Sorted (xs.flatMap Leaf.entries ++ (ps ++ (key, value) :: qs) ++ ys.flatMap Leaf.entries) := by
  have hsorted := h.entries
  rw [List.flatMap_append, List.flatMap_cons, hsplit] at hsorted
  have hlist : xs.flatMap Leaf.entries ++ (ps ++ qs ++ ys.flatMap Leaf.entries) =
      (xs.flatMap Leaf.entries ++ ps) ++ (qs ++ ys.flatMap Leaf.entries) := by simp
  have hgoal : xs.flatMap Leaf.entries ++ (ps ++ (key, value) :: qs) ++ ys.flatMap Leaf.entries =
      (xs.flatMap Leaf.entries ++ ps) ++ (key, value) :: (qs ++ ys.flatMap Leaf.entries) := by simp
  rw [hlist, Group.sorted_append] at hsorted
  have hleft : ∀ e ∈ xs.flatMap Leaf.entries ++ ps, e.1 < key := by
    intro e he
    rcases List.mem_append.mp he with he | he
    · exact h.lt_of_left hrouted he
    · exact hps e he
  have hright : ∀ e ∈ qs ++ ys.flatMap Leaf.entries, key < e.1 := by
    intro e he
    rcases List.mem_append.mp he with he | he
    · exact hqs e he
    · exact h.lt_of_right hrouted he
  rw [hgoal, Group.sorted_append]
  refine ⟨hsorted.1, List.pairwise_cons.mpr ⟨hright, hsorted.2.1⟩, fun e he e' he' => ?_⟩
  rcases List.mem_cons.mp he' with rfl | he'
  · exact hleft e he
  · exact hsorted.2.2 e he e' he'

/-- A key that comes first in its leaf comes first in the tree. -/
theorem first_of_place {qs : List Entry} (h : Stands tree s none levels (xs ++ l :: ys))
    (hrouted : Routed key (xs.map Leaf.item) l.item (ys.map Leaf.item)) (hsplit : l.entries = qs) (hqs : ∀ q ∈ qs, key < q.1) :
    xs = [] := by
  by_contra hne
  obtain ⟨value, rest, hl⟩ := h.low_of_ne_nil hne
  have hlow : l.low ≤ key := hrouted.1 (by simpa using hne)
  exact absurd hlow (not_le_of_gt (hqs (l.low, value) (by rw [← hsplit, hl]; exact List.mem_cons_self)))

theorem leaf_ne (h : Stands tree s hole levels (xs ++ l :: ys)) {other : Leaf} (hother : other ∈ xs ++ ys) : other.id ≠ l.id := by
  have hids := h.upper.ids.of_append_left
  rw [List.map_append, List.map_cons, List.map_append, List.map_cons, List.nodup_middle, ← List.map_append, ← List.map_append]
    at hids
  exact fun heq => (List.nodup_cons.mp hids).1 (List.mem_map.mpr ⟨other.item, List.mem_map_of_mem hother, heq⟩)

/-- A leaf has been written with other entries, and the levels above know its first key. -/
theorem turned_write {parent : PageId} {l' : Leaf} (h : Stands tree s none levels (xs ++ l :: ys))
    (hnode : s l.id = some (.node (l.node parent (firstId ys .invalid)))) (hid : l'.id = l.id)
    (hrep : Repaired tree tree (s.write l.id (l'.node parent (firstId ys .invalid))) s'
      (((xs ++ l :: ys).map Leaf.item).map Prod.snd) levels levels')
    (hupper : Upper tree s' none levels' ((xs ++ l' :: ys).map Leaf.item))
    (hentries : Sorted ((xs ++ l' :: ys).flatMap Leaf.entries))
    (hlow : xs ≠ [] → ∃ value rest, l'.entries = (l'.low, value) :: rest)
    (hsize : l'.entries.length ≤ tree.config.leafMaxKeys ∧
      (levels' ≠ [] → (tree.config.leafMaxKeys + 1) / 2 ≤ l'.entries.length)) :
    Turned tree tree s s' levels (xs ++ l :: ys) ((xs ++ l' :: ys).flatMap Leaf.entries) := by
  have hlist : ∀ leaf : Leaf, xs ++ leaf :: ys = xs ++ leaf :: [] ++ ys := fun leaf => by simp
  have hids : ((xs ++ l' :: ys).map Leaf.item).map Prod.snd = ((xs ++ l :: ys).map Leaf.item).map Prod.snd := by
    simp [Leaf.item, hid]
  have hchanged : Changed tree tree s (s.write l.id (l'.node parent (firstId ys .invalid))) (ownIds tree levels (xs ++ l :: ys))
      (ownIds tree levels (xs ++ l :: ys)) :=
    changed_write (.inl (mem_own_leaf (by simp))) (by simp [hnode]) fun _ => .inl
  have hown : ∀ id ∈ ownIds tree levels (xs ++ l' :: ys), id ∈ ownIds tree levels (xs ++ l :: ys) := by
    rw [ownIds, ownIds, hids]
    exact fun _ => id
  have hsame : ∀ other ∈ xs ++ ys, s.write l.id (l'.node parent (firstId ys .invalid)) other.id = s other.id :=
    fun other hother => Store.write_of_ne (h.leaf_ne hother) _
  rw [← hids] at hrep
  rw [hlist l] at h hchanged hown ⊢
  rw [hlist l'] at hrep hupper hentries hown ⊢
  refine h.turned (by simp) hid hsame ⟨⟨parent, ?_⟩, trivial⟩ hchanged hown hrep hupper (by simp) hentries hlow (by simp)
    (by simpa using hsize)
  rw [hid, Store.write_self]
  rfl

/-- The leaf has room. -/
theorem does_insertRoom {parent : PageId} {value : RecordId} {ps qs : List Entry} (h : Stands tree s none levels (xs ++ l :: ys))
    (hrouted : Routed key (xs.map Leaf.item) l.item (ys.map Leaf.item))
    (hnode : s l.id = some (.node (l.node parent (firstId ys .invalid)))) (hsplit : l.entries = ps ++ qs)
    (hps : ∀ p ∈ ps, p.1 < key) (hqs : ∀ q ∈ qs, key < q.1)
    (hroom : (ps ++ (key, value) :: qs).length ≤ tree.config.leafMaxKeys) {Q : Bool → BPlusTree → Store → Prop}
    (hQ : ∀ s', Turned tree tree s s' levels (xs ++ l :: ys)
      (xs.flatMap Leaf.entries ++ (ps ++ (key, value) :: qs) ++ ys.flatMap Leaf.entries) → Q true tree s') :
    TreeOp.Does (do
      BPlusTree.writeNode l.id (Leaf.node ⟨l.id, l.low, ps ++ (key, value) :: qs⟩ parent (firstId ys .invalid))
      if ps.length = 0 then BPlusTree.updateParentSeparator (2 ^ 64) l.id key
      return true) tree s Q := by
  have hsorted := h.sorted_insert value hrouted hsplit hps hqs
  have hmem : l.id ∈ ((xs ++ l :: ys).map Leaf.item).map Prod.snd := List.mem_map_of_mem (List.mem_map_of_mem (by simp))
  have hsize := h.sizes l (by simp)
  have hlength : l.entries.length + 1 = (ps ++ (key, value) :: qs).length := by
    rw [hsplit]
    simp
    omega
  have hflat : ∀ low, xs.flatMap Leaf.entries ++ (ps ++ (key, value) :: qs) ++ ys.flatMap Leaf.entries =
      (xs ++ ⟨l.id, low, ps ++ (key, value) :: qs⟩ :: ys).flatMap Leaf.entries := fun low => by simp
  have hup := h.upper.write_item hmem (Leaf.node ⟨l.id, l.low, ps ++ (key, value) :: qs⟩ parent (firstId ys .invalid))
    hnode rfl
  apply does_bind
  refine does_writeLeaf _ parent _ h.upper.accepted (by simp [hnode]) rfl hroom ?_
  dsimp only
  by_cases hfirst : ps = []
  · subst hfirst
    obtain rfl := h.first_of_place hrouted hsplit hqs
    rw [if_pos List.length_nil]
    rw [List.map_append, List.map_cons] at hup
    apply does_bind
    refine (does_updateParentSeparator hup key h.upper.length_lt).mono ?_
    rintro _ tree' s' ⟨rfl, levels', hup', hrep, hids⟩
    refine does_pure (hQ s' ?_)
    rw [hflat key] at hsorted ⊢
    refine h.turned_write hnode rfl hrep hup' hsorted (fun hne => absurd rfl hne) ⟨hroom, fun hne => ?_⟩
    have hlevels : levels ≠ [] := by
      rintro rfl
      simp at hids
      exact hne hids
    have hmin := hsize.2 hlevels
    simp only [reduceCtorEq, if_false] at hmin
    simp only [List.nil_append] at hlength ⊢
    omega
  · rw [if_neg (by simpa using hfirst)]
    refine does_pure (hQ _ ?_)
    rw [hflat l.low] at hsorted ⊢
    refine h.turned_write hnode rfl (repaired_refl _ _ _ _) (by simpa [Leaf.item] using hup) hsorted (fun hne => ?_)
      ⟨hroom, fun hne => ?_⟩
    · obtain ⟨value', rest, hl⟩ := h.low_of_ne_nil hne
      obtain ⟨p, ps, rfl⟩ := List.exists_cons_of_ne_nil hfirst
      rw [hsplit] at hl
      obtain ⟨rfl, -⟩ := List.cons.inj hl
      exact ⟨value', _, rfl⟩
    · have hmin := hsize.2 hne
      simp only [reduceCtorEq, if_false] at hmin
      simp only at hlength ⊢
      omega

/-- The leaf is full and is cut in two. -/
theorem does_insertSplit {parent : PageId} {entries rest : List Entry} {sep : Entry} (h : Stands tree s none levels (xs ++ l :: ys))
    (hnode : s l.id = some (.node (l.node parent (firstId ys .invalid))))
    (hentries : Sorted (xs.flatMap Leaf.entries ++ entries ++ ys.flatMap Leaf.entries))
    (hfull : entries.length = tree.config.leafMaxKeys + 1) (hdrop : entries.drop (entries.length / 2) = sep :: rest)
    (hlow : xs ≠ [] → ∃ value rest, entries = (l.low, value) :: rest) {Q : Bool → BPlusTree → Store → Prop}
    (hQ : ∀ tree' s', Turned tree tree' s s' levels (xs ++ l :: ys)
      (xs.flatMap Leaf.entries ++ entries ++ ys.flatMap Leaf.entries) → Q true tree' s') :
    TreeOp.Does (do
      let rightId ← BPlusTree.allocateNode (Leaf.node ⟨l.id, sep.1, sep :: rest⟩ parent (firstId ys .invalid))
      BPlusTree.writeNode l.id (Leaf.node ⟨l.id, l.low, entries.take (entries.length / 2)⟩ parent rightId)
      let separator ← front (Leaf.node ⟨l.id, sep.1, sep :: rest⟩ parent (firstId ys .invalid)).keys
      BPlusTree.insertIntoParent (2 ^ 64) l.id separator rightId
      return true) tree s Q := by
  have haccepted := h.upper.accepted
  have hleafMax := haccepted.leaf
  have hright : (sep :: rest).length = entries.length - entries.length / 2 := by rw [← hdrop, List.length_drop]
  have hleft : (entries.take (entries.length / 2)).length = entries.length / 2 := by
    rw [List.length_take]
    omega
  have hmem : l.id ∈ ((xs ++ l :: ys).map Leaf.item).map Prod.snd := List.mem_map_of_mem (List.mem_map_of_mem (by simp))
  apply does_bind
  refine does_allocateNode haccepted ⟨?_, ?_⟩ fun rightId hfree hvalid => ?_
  · change ((sep :: rest).map Prod.fst).length ≤ tree.config.leafMaxKeys
    rw [List.length_map]
    omega
  · simp [Leaf.node]
  obtain ⟨left, hleftDef⟩ : ∃ left : Leaf, left = ⟨l.id, l.low, entries.take (entries.length / 2)⟩ := ⟨_, rfl⟩
  obtain ⟨right, hrightDef⟩ : ∃ right : Leaf, right = ⟨rightId, sep.1, sep :: rest⟩ := ⟨_, rfl⟩
  have hne : l.id ≠ rightId := fun heq => by simp [heq, hfree] at hnode
  have hnode₁ : s.write rightId (right.node parent (firstId ys .invalid)) l.id =
      some (.node (l.node parent (firstId ys .invalid))) := by
    rw [Store.write_of_ne hne]
    exact hnode
  have hup := (h.upper.write_fresh hfree (right.node parent (firstId ys .invalid))).write_item hmem (left.node parent rightId)
    hnode₁ rfl
  rw [List.map_append, List.map_cons] at hup
  have hstore : s.write rightId (Leaf.node ⟨l.id, sep.1, sep :: rest⟩ parent (firstId ys .invalid)) =
      s.write rightId (right.node parent (firstId ys .invalid)) := by rw [hrightDef]; rfl
  rw [hstore]
  apply does_bind
  refine does_writeLeaf left parent rightId haccepted (by simp [hnode₁]) (by rw [hleftDef]) (by rw [hleftDef]; simp only; omega) ?_
  obtain ⟨s₁, hs₁⟩ : ∃ s₁, s₁ = (s.write rightId (right.node parent (firstId ys .invalid))).write l.id (left.node parent rightId) :=
    ⟨_, rfl⟩
  rw [← hs₁] at hup ⊢
  have hnodeLeft : s₁ l.id = some (.node (left.node parent rightId)) := by rw [hs₁, Store.write_self]
  have hnodeRight : s₁ rightId = some (.node (right.node parent (firstId ys .invalid))) := by
    rw [hs₁, Store.write_of_ne hne.symm, Store.write_self]
  have hnew : NewItem s₁ levels (xs.map Leaf.item ++ l.item :: ys.map Leaf.item) rightId := by
    refine ⟨⟨_, hnodeRight⟩, fun hin => ?_, fun hin => ?_⟩
    · rw [← List.map_cons, ← List.map_append] at hin
      exact (h.upper.items_apart hin).2.1 hfree
    · obtain ⟨p, hparent⟩ := h.upper.tower.inner_node hin
      exact hparent.ne_none hfree
  apply does_bind
  refine does_front (a := sep.1) rfl ?_
  apply does_bind
  refine (does_insertIntoParent hup hnew h.upper.length_lt).mono ?_
  rintro _ tree' s' ⟨levels', hup', hrep⟩
  have hrep : Repaired tree tree' s₁ s' (rightId :: (((xs ++ l :: ys).map Leaf.item).map Prod.snd)) levels levels' := by
    rw [List.map_append, List.map_cons]
    exact hrep
  have hflat : xs.flatMap Leaf.entries ++ entries ++ ys.flatMap Leaf.entries = (xs ++ left :: [right] ++ ys).flatMap Leaf.entries := by
    have hcut : entries = left.entries ++ right.entries := by
      rw [hleftDef, hrightDef, ← hdrop, List.take_append_drop]
    simp [hcut]
  have hids : ((xs ++ left :: [right] ++ ys).map Leaf.item).map Prod.snd =
      (xs.map Leaf.item).map Prod.snd ++ l.id :: rightId :: (ys.map Leaf.item).map Prod.snd := by
    simp [hleftDef, hrightDef, Leaf.item]
  have hitems : (xs ++ left :: [right] ++ ys).map Leaf.item =
      xs.map Leaf.item ++ (l.low, l.id) :: (sep.1, rightId) :: ys.map Leaf.item := by simp [hleftDef, hrightDef, Leaf.item]
  have hrep : Repaired tree tree' s₁ s' (((xs ++ left :: [right] ++ ys).map Leaf.item).map Prod.snd) levels levels' := by
    refine hrep.of_mem fun id => ?_
    rw [hids]
    simp only [List.map_append, List.map_cons, List.mem_append, List.mem_cons, Leaf.item]
    tauto
  have hchanged : Changed tree tree s s₁ (ownIds tree levels (xs ++ l :: ys)) (rightId :: ownIds tree levels (xs ++ l :: ys)) := by
    have hfresh : Changed tree tree s (s.write rightId (right.node parent (firstId ys .invalid)))
        (ownIds tree levels (xs ++ l :: ys)) (rightId :: ownIds tree levels (xs ++ l :: ys)) := by
      refine changed_write (.inr hfree) (by simp [hfree]) fun other hother => ?_
      rcases List.mem_cons.mp hother with rfl | hin
      · exact .inr ⟨rfl, hfree⟩
      · exact .inl hin
    rw [hs₁]
    exact hfresh.trans (changed_write (.inl (List.mem_cons_of_mem _ (mem_own_leaf (by simp)))) (by simp [hnode₁]) fun _ => .inl)
  have hown : ∀ id ∈ ownIds tree levels (xs ++ left :: [right] ++ ys), id ∈ rightId :: ownIds tree levels (xs ++ l :: ys) := by
    intro id hid
    rw [ownIds, hids] at hid
    simp only [ownIds, List.map_append, List.map_cons, List.mem_append, List.mem_cons, Leaf.item] at hid ⊢
    tauto
  have hsame : ∀ other ∈ xs ++ ys, s₁ other.id = s other.id := by
    intro other hother
    have hthere : s other.id ≠ none := (h.upper.items_apart (p := other.id) (by
      exact List.mem_map_of_mem (List.mem_map_of_mem (f := Leaf.item) (mem_middle.mpr (.inr hother))))).2.1
    have hright : other.id ≠ rightId := fun heq => hthere (heq ▸ hfree)
    rw [hs₁, Store.write_of_ne (h.leaf_ne hother), Store.write_of_ne hright]
  have hlist : xs ++ l :: ys = xs ++ l :: [] ++ ys := by simp
  have hlinked : Linked s₁ (left :: [right]) (firstId ys .invalid) := by
    refine ⟨⟨parent, ?_⟩, ⟨parent, ?_⟩, trivial⟩
    · have hid : left.id = l.id := by rw [hleftDef]
      have hnext : firstId [right] (firstId ys .invalid) = rightId := by rw [firstId, hrightDef]
      rw [hid, hnext, hnodeLeft]
    · have hid : right.id = rightId := by rw [hrightDef]
      rw [hid, hnodeRight]
      rfl
  refine does_pure (hQ tree' s' ?_)
  rw [hflat] at hentries ⊢
  rw [hlist] at h hchanged hown ⊢
  refine h.turned (by simp) (by rw [hleftDef]) hsame hlinked hchanged hown hrep (by rw [hitems]; exact hup') ?_ hentries (fun hne => ?_)
    ?_ ?_
  · simpa [hrightDef] using hvalid
  · obtain ⟨value, tail, hfirst⟩ := hlow hne
    refine ⟨value, tail.take (entries.length / 2 - 1), ?_⟩
    obtain ⟨n, hn⟩ : ∃ n, entries.length / 2 = n + 1 := ⟨entries.length / 2 - 1, by omega⟩
    rw [hleftDef, hn]
    simp [hfirst]
  · simp [hrightDef]
    exact ⟨sep.2, rfl⟩
  · simp only [List.mem_cons, List.not_mem_nil, or_false, forall_eq_or_imp, forall_eq, hleftDef, hrightDef]
    omega

/-- An insertion puts in an entry whose key was not there, and otherwise does nothing. -/
theorem does_insertImpl (h : Stands tree s none levels leaves) (key : KeyType) (value : RecordId) :
    (BPlusTree.insertImpl key value).Does tree s fun inserted tree' s' =>
      (inserted = false ∧ tree' = tree ∧ s' = s ∧ ∃ old, (key, old) ∈ leaves.flatMap Leaf.entries) ∨
      (inserted = true ∧ (∀ old, (key, old) ∉ leaves.flatMap Leaf.entries) ∧
        ∃ before after, leaves.flatMap Leaf.entries = before ++ after ∧
          Turned tree tree' s s' levels leaves (before ++ (key, value) :: after)) := by
  apply does_bind
  refine h.does_findLeaf key ?_
  rintro xs l ys rfl hrouted
  obtain ⟨parent, hnode⟩ := h.node_of_mem
  have hkeys : (l.node parent (firstId ys .invalid)).keys = l.entries.map Prod.fst := rfl
  have hvalues : (l.node parent (firstId ys .invalid)).values = l.entries.map Prod.snd := rfl
  apply does_bind
  refine does_readNode hnode fun _ => ?_
  dsimp only
  rw [hkeys, hvalues]
  rcases exists_place h.leaf_sorted key with
    ⟨ps, old, qs, hsplit, hplace, hfound, -, -⟩ | ⟨ps, qs, hsplit, hplace, hfound, hps, hqs⟩
  · rw [hplace, if_pos hfound]
    exact does_pure (.inl ⟨rfl, rfl, rfl, old, (h.mem_entries_iff hrouted).mpr (by rw [hsplit]; simp)⟩)
  · rw [hplace, if_neg hfound]
    obtain ⟨entries, hentries⟩ : ∃ entries, entries = ps ++ (key, value) :: qs := ⟨_, rfl⟩
    have hinsertKeys : (l.entries.map Prod.fst).insertIdx ps.length key = entries.map Prod.fst := by
      rw [hsplit, hentries, List.map_append, List.map_append, ← List.length_map Prod.fst, insertIdx_at]
      rfl
    have hinsertValues : (l.entries.map Prod.snd).insertIdx ps.length value = entries.map Prod.snd := by
      rw [hsplit, hentries, List.map_append, List.map_append, ← List.length_map Prod.snd, insertIdx_at]
      rfl
    have hle : ps.length ≤ l.entries.length := by rw [hsplit]; simp
    have hlength : entries.length = l.entries.length + 1 := by
      rw [hentries, hsplit]
      simp
      omega
    have habsent : ∀ old, (key, old) ∉ (xs ++ l :: ys).flatMap Leaf.entries := by
      intro old hin
      rw [h.mem_entries_iff hrouted, hsplit] at hin
      exact not_mem_place hps hqs hin
    have hsorted := h.sorted_insert value hrouted hsplit hps hqs
    have hflat : (xs ++ l :: ys).flatMap Leaf.entries = (xs.flatMap Leaf.entries ++ ps) ++ (qs ++ ys.flatMap Leaf.entries) := by
      simp [hsplit]
    have hflat' : xs.flatMap Leaf.entries ++ (ps ++ (key, value) :: qs) ++ ys.flatMap Leaf.entries =
        (xs.flatMap Leaf.entries ++ ps) ++ (key, value) :: (qs ++ ys.flatMap Leaf.entries) := by simp
    apply does_bind
    refine does_insertAt (by simpa using hle) ?_
    apply does_bind
    refine does_insertAt (by simpa using hle) ?_
    apply does_bind
    apply does_get
    rw [hinsertKeys, hinsertValues, List.length_map]
    by_cases hroom : entries.length ≤ tree.config.leafMaxKeys
    · rw [if_pos hroom]
      subst hentries
      refine h.does_insertRoom hrouted hnode hsplit hps hqs hroom fun s' hturned => .inr ⟨rfl, habsent, _, _, hflat, ?_⟩
      rw [← hflat']
      exact hturned
    · rw [if_neg hroom]
      have hsize := (h.sizes l (by simp)).1
      obtain ⟨sep, rest, hdrop⟩ : ∃ sep rest, entries.drop (entries.length / 2) = sep :: rest :=
        List.exists_cons_of_ne_nil fun hnil => by
          have := List.drop_eq_nil_iff.mp hnil
          omega
      have hlow : xs ≠ [] → ∃ value rest, entries = (l.low, value) :: rest := by
        intro hne
        obtain ⟨first, tail, hl⟩ := h.low_of_ne_nil hne
        rw [hsplit] at hl
        cases ps with
        | nil => exact absurd (h.first_of_place hrouted hsplit hqs) hne
        | cons p ps =>
          obtain ⟨rfl, -⟩ := List.cons.inj hl
          exact ⟨first, _, hentries⟩
      rw [← hentries] at hsorted hflat'
      have hright : ∀ p n, (⟨true, p, n, (entries.map Prod.fst).drop (entries.length / 2),
          (entries.map Prod.snd).drop (entries.length / 2), []⟩ : Node) = Leaf.node ⟨l.id, sep.1, sep :: rest⟩ p n := by
        intro p n
        rw [← List.map_drop, ← List.map_drop, hdrop]
        rfl
      have hleft : ∀ n, { l.node parent (firstId ys .invalid) with
          next := n
          keys := (entries.map Prod.fst).take (entries.length / 2)
          values := (entries.map Prod.snd).take (entries.length / 2) } =
            Leaf.node ⟨l.id, l.low, entries.take (entries.length / 2)⟩ parent n := by
        intro n
        rw [← List.map_take, ← List.map_take]
        rfl
      have hfront : (entries.map Prod.fst).drop (entries.length / 2) =
          (Leaf.node ⟨l.id, sep.1, sep :: rest⟩ parent (firstId ys .invalid)).keys := by
        rw [← List.map_drop, hdrop]
        rfl
      rw [hright]
      simp only [hleft, hfront]
      refine h.does_insertSplit hnode hsorted (by omega) hdrop hlow fun tree' s' hturned => ?_
      refine .inr ⟨rfl, habsent, _, _, hflat, ?_⟩
      rw [← hflat']
      exact hturned

end Stands

end Ddb.Index
