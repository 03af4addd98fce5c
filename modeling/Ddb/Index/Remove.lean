import Ddb.Index.Insert

/-!
# Removal

A removal takes the entry out of its leaf. A leaf that then is too small takes an entry from a neighbour under the same parent
or is merged with it, and the repair goes on above. With a neighbour on the right the first key of the parent's subtree may
have changed, so the separator further up is set as well.
-/

namespace Ddb.Index

open Ddb.Lib Ddb.Storage
open Ddb.Lib.Group (Sorted Routed)

variable {tree tree' : BPlusTree} {s s' t : Store} {levels levels' rest : List (List Inner)} {leaves leaves' xs ys : List Leaf}
  {l a a' b b' : Leaf} {key : KeyType} {hole : Option PageId} {first last : List Inner} {g q : Inner} {ps qs items : List Item}

/-! ## The first key of a node -/

theorem does_updateFirst (h : Upper tree s hole ((first ++ g :: last) :: rest) items) (low : KeyType) :
    (BPlusTree.updateParentSeparator (2 ^ 64) g.id low).Does tree s fun _ tree' s' => tree' = tree ∧
      ∃ rest', Upper tree s' hole ((first ++ g.withFirst low :: last) :: rest')
          (first.flatMap Group.items ++ (low, g.head.2) :: (g.rest ++ last.flatMap Group.items)) ∧
        Repaired tree tree s s' (items.map Prod.snd) ((first ++ g :: last) :: rest) ((first ++ g.withFirst low :: last) :: rest') ∧
        innerIds ((first ++ g.withFirst low :: last) :: rest') = innerIds ((first ++ g :: last) :: rest) := by
  have hup := h.up
  rw [List.map_append, List.map_cons] at hup
  have hlt : rest.length < 2 ^ 64 := h.up.length_lt
  refine (does_updateParentSeparator hup low hlt).mono ?_
  rintro _ tree' s' ⟨rfl, rest', hup', hrep, hids⟩
  have hrep : Repaired tree' tree' s s' (((first ++ g :: last).map Group.item).map Prod.snd) rest rest' := by
    rw [List.map_append, List.map_cons]
    exact hrep
  refine ⟨rfl, rest', h.rekey hrep hup' hids, h.climb_refl hrep (by simp [Inner.withFirst]), ?_⟩
  rw [innerIds_cons, innerIds_cons, innerIds_congr hids]
  simp [Inner.withFirst]

/-! ## Neighbours -/

/-- Two leaves next to each other under one parent. -/
structure LeafPair (tree : BPlusTree) (s : Store) (hole : Option PageId) (rest : List (List Inner)) (xs : List Leaf) (a b : Leaf)
    (ys : List Leaf) (first : List Inner) (q : Inner) (last : List Inner) (ps qs : List Item) : Prop where
  stands : Stands tree s hole ((first ++ q :: last) :: rest) (xs ++ a :: [b] ++ ys)
  siblings : Siblings (first ++ q :: last) (xs.map Leaf.item) (ys.map Leaf.item) a.item b.item first q last ps qs
  others : ∀ other ∈ xs ++ ys, hole ≠ some other.id

/-- The store after the two and their parent have been written. -/
structure Redone (tree : BPlusTree) (s t : Store) (hole : Option PageId) (levels levels' : List (List Inner)) (items : List Item)
    (xs old new ys : List Leaf) : Prop where
  upper : Upper tree t hole levels' items
  linked : Linked t new (firstId ys .invalid)
  same : ∀ other ∈ xs ++ ys, t other.id = s other.id
  changed : Changed tree tree s t (ownIds tree levels (xs ++ old ++ ys)) (ownIds tree levels (xs ++ old ++ ys))
  ids : innerIds levels' = innerIds levels

namespace LeafPair

variable (h : LeafPair tree s hole rest xs a b ys first q last ps qs)

include h

theorem upper : Upper tree s none ((first ++ q :: last) :: rest) (xs.map Leaf.item ++ a.item :: b.item :: ys.map Leaf.item) := by
  have hupper := h.stands.upper
  have hitems : (xs ++ a :: [b] ++ ys).map Leaf.item = xs.map Leaf.item ++ a.item :: b.item :: ys.map Leaf.item := by simp
  rwa [hitems] at hupper

omit h in
theorem leaf_mem (hl : l ∈ xs ++ a :: [b] ++ ys) :
    l.id ∈ (xs.map Leaf.item ++ a.item :: b.item :: ys.map Leaf.item).map Prod.snd := by
  have hitems : (xs ++ a :: [b] ++ ys).map Leaf.item = xs.map Leaf.item ++ a.item :: b.item :: ys.map Leaf.item := by simp
  rw [← hitems]
  exact List.mem_map_of_mem (List.mem_map_of_mem hl)

theorem ids_ne : a.id ≠ b.id := by
  have hids := h.upper.ids.of_append_left
  rw [List.map_append] at hids
  have hab := (List.nodup_cons.mp hids.of_append_right).1
  exact fun heq => hab (List.mem_cons.mpr (.inl heq))

theorem parent_ne (hl : l ∈ xs ++ a :: [b] ++ ys) : l.id ≠ q.id := fun heq =>
  (h.upper.items_apart (leaf_mem hl)).1 (heq ▸ mem_innerIds (by simp))

theorem other_ne (hl : l ∈ xs ++ ys) : l.id ≠ a.id ∧ l.id ≠ b.id ∧ l.id ≠ q.id := by
  have hids := h.upper.ids.of_append_left
  rw [List.map_append, List.map_cons, List.map_cons] at hids
  have hl' : l.id ∈ (xs.map Leaf.item).map Prod.snd ++ (ys.map Leaf.item).map Prod.snd := by
    rw [← List.map_append, ← List.map_append]
    exact List.mem_map_of_mem (List.mem_map_of_mem hl)
  have hperm := (List.perm_middle.trans (List.perm_middle.cons a.item.2)).nodup_iff.mp hids
  obtain ⟨ha, hb⟩ := List.nodup_cons.mp hperm
  refine ⟨fun heq => ?_, fun heq => ?_, h.parent_ne ?_⟩
  · exact ha (List.mem_cons_of_mem _ (show a.id ∈ _ from heq ▸ hl'))
  · exact (List.nodup_cons.mp hb).1 (show b.id ∈ _ from heq ▸ hl')
  · rw [List.append_assoc]
    exact mem_middle_pair.mpr (.inr (.inr hl))

/-- The nodes of the two and of their parent. -/
theorem nodes : s a.id = some (.node (a.node q.id b.id)) ∧ s b.id = some (.node (b.node q.id (firstId ys .invalid))) ∧
    ∃ pq, s q.id = some (.node (Inner.node q pq)) := by
  have hlinked := h.stands.linked
  rw [linked_append, linked_append] at hlinked
  obtain ⟨⟨-, ⟨pa, ha⟩, ⟨pb, hb⟩, -⟩, -⟩ := hlinked
  have hinner := h.stands.upper.tower.2.1 q (by simp)
  have hchildren : a.id ∈ q.children ∧ b.id ∈ q.children := by
    rw [Group.children, h.siblings.items]
    simp [Leaf.item]
  obtain rfl : pa = q.id := HasParent.unique ⟨_, ha, rfl⟩ (hinner.children _ hchildren.1)
  obtain rfl : pb = q.id := HasParent.unique ⟨_, hb, rfl⟩ (hinner.children _ hchildren.2)
  exact ⟨ha, hb, hinner.node⟩

omit h in
/-- Writing the leaves and the parent is within the tree. -/
theorem changed_write_own {id : PageId} {old node : Node} {t : Store}
    (hid : id ∈ ownIds tree ((first ++ q :: last) :: rest) (xs ++ a :: [b] ++ ys)) (hold : t id = some (.node old)) :
    Changed tree tree t (t.write id node) (ownIds tree ((first ++ q :: last) :: rest) (xs ++ a :: [b] ++ ys))
      (ownIds tree ((first ++ q :: last) :: rest) (xs ++ a :: [b] ++ ys)) :=
  changed_write (.inl hid) (by simp [hold]) fun _ => .inl

/-- An entry has moved between the two. -/
theorem redone_shift (a' b' : Leaf) {pq : PageId} (hnq : s q.id = some (.node (Inner.node q pq))) (ha : a'.id = a.id) (hb : b'.id = b.id)
    (key : KeyType) {q' : Inner} (hq' : q' = ⟨q.id, q.head, q.rest.set ps.length (key, b.id)⟩)
    (ht : t = ((s.write a.id (a'.node q.id b.id)).write b.id (b'.node q.id (firstId ys .invalid))).write q.id (Inner.node q' pq)) :
    Redone tree s t none ((first ++ q :: last) :: rest) ((first ++ q' :: last) :: rest)
      (xs.map Leaf.item ++ a.item :: (key, b.id) :: ys.map Leaf.item) xs (a :: [b]) (a' :: [b']) ys := by
  obtain ⟨hna, hnb, -⟩ := h.nodes
  have hab := h.ids_ne
  have haq := h.parent_ne (l := a) (by simp)
  have hbq := h.parent_ne (l := b) (by simp)
  have hwritten : ParentWritten tree s t ((first ++ q :: last) :: rest) (xs.map Leaf.item ++ a.item :: b.item :: ys.map Leaf.item)
      q q' := by
    rw [ht]
    refine ItemsWritten.parentWritten ?_ h.upper (mem_innerIds (by simp)) hnq
    have hfirst : ItemsWritten tree s (s.write a.id (a'.node q.id b.id)) ((first ++ q :: last) :: rest)
        (xs.map Leaf.item ++ a.item :: b.item :: ys.map Leaf.item) :=
      (itemsWritten_refl tree s _ _).write h.upper (leaf_mem (l := a) (by simp)) ⟨_, hna, rfl⟩
    exact hfirst.write h.upper (leaf_mem (l := b) (by simp)) ⟨_, hnb, rfl⟩
  refine ⟨?_, ?_, ?_, ?_, ?_⟩
  · rw [hq'] at hwritten ⊢
    exact h.upper.setItem h.siblings hwritten
  · refine ⟨⟨q.id, ?_⟩, ⟨q.id, ?_⟩, trivial⟩
    · rw [ha, ht, Store.write_of_ne haq, Store.write_of_ne hab, Store.write_self, firstId, hb]
    · rw [hb, ht, Store.write_of_ne hbq, Store.write_self, firstId]
  · intro other hother
    obtain ⟨hoa, hob, hoq⟩ := h.other_ne hother
    rw [ht, Store.write_of_ne hoq, Store.write_of_ne hob, Store.write_of_ne hoa]
  · rw [ht]
    have hnb₁ := (Store.write_of_ne hab.symm (a'.node q.id b.id)).trans hnb
    have hnq₁ := (Store.write_of_ne haq.symm (a'.node q.id b.id)).trans hnq
    have hnq₂ := (Store.write_of_ne hbq.symm (b'.node q.id (firstId ys .invalid))).trans hnq₁
    exact ((changed_write_own (mem_own_leaf (by simp)) hna).trans (changed_write_own (mem_own_leaf (by simp)) hnb₁)).trans
      (changed_write_own (mem_own_inner (mem_innerIds (by simp))) hnq₂)
  · simp [innerIds_cons, hq']

/-- The second has gone into the first. -/
theorem redone_merge (a' : Leaf) {pq : PageId} (hnq : s q.id = some (.node (Inner.node q pq))) (ha : a'.id = a.id)
    {q' : Inner} (hq' : q' = ⟨q.id, q.head, q.rest.eraseIdx ps.length⟩)
    (ht : t = (s.write a.id (a'.node q.id (firstId ys .invalid))).write q.id (Inner.node q' pq)) :
    Redone tree s t (some q.id) ((first ++ q :: last) :: rest) ((first ++ q' :: last) :: rest)
      (xs.map Leaf.item ++ a.item :: ys.map Leaf.item) xs (a :: [b]) [a'] ys := by
  obtain ⟨hna, -, -⟩ := h.nodes
  have haq := h.parent_ne (l := a) (by simp)
  have hwritten : ParentWritten tree s t ((first ++ q :: last) :: rest) (xs.map Leaf.item ++ a.item :: b.item :: ys.map Leaf.item)
      q q' := by
    rw [ht]
    refine ItemsWritten.parentWritten ?_ h.upper (mem_innerIds (by simp)) hnq
    exact (itemsWritten_refl tree s _ _).write h.upper (leaf_mem (l := a) (by simp)) ⟨_, hna, rfl⟩
  refine ⟨?_, ?_, ?_, ?_, ?_⟩
  · rw [hq'] at hwritten ⊢
    exact h.upper.dropItem h.siblings hwritten
  · refine ⟨⟨q.id, ?_⟩, trivial⟩
    rw [ha, ht, Store.write_of_ne haq, Store.write_self, firstId]
  · intro other hother
    obtain ⟨hoa, -, hoq⟩ := h.other_ne hother
    rw [ht, Store.write_of_ne hoq, Store.write_of_ne hoa]
  · rw [ht]
    have hnq₁ := (Store.write_of_ne haq.symm (a'.node q.id (firstId ys .invalid))).trans hnq
    exact (changed_write_own (mem_own_leaf (by simp)) hna).trans
      (changed_write_own (mem_own_inner (mem_innerIds (by simp))) hnq₁)
  · simp [innerIds_cons, hq']

/-- The tree stands again, with the same entries. -/
theorem turned {hole' : Option PageId} {levels₁ : List (List Inner)} {mid : List Leaf}
    (ht : Redone tree s t hole' ((first ++ q :: last) :: rest) levels₁ items xs (a :: [b]) (a' :: mid) ys) (ha : a'.id = a.id)
    (hmid : ∀ new ∈ mid, new.id = b.id)
    (hrep : Repaired tree tree' t s' (((xs ++ a' :: mid ++ ys).map Leaf.item).map Prod.snd) levels₁ levels')
    (hupper : Upper tree' s' none levels' ((xs ++ a' :: mid ++ ys).map Leaf.item))
    (hentries : (a' :: mid).flatMap Leaf.entries = a.entries ++ b.entries)
    (hlow : xs ≠ [] → ∃ value rest, a'.entries = (a'.low, value) :: rest)
    (hlows : ∀ new ∈ mid, ∃ value rest, new.entries = (new.low, value) :: rest)
    (hsizes : ∀ new ∈ a' :: mid, new.entries.length ≤ tree.config.leafMaxKeys ∧
      (tree.config.leafMaxKeys + 1) / 2 ≤ new.entries.length) :
    Turned tree tree' s s' ((first ++ q :: last) :: rest) (xs ++ a :: [b] ++ ys) ((xs ++ a :: [b] ++ ys).flatMap Leaf.entries) := by
  have hflat : (xs ++ a :: [b] ++ ys).flatMap Leaf.entries = (xs ++ a' :: mid ++ ys).flatMap Leaf.entries := by
    rw [List.flatMap_append, List.flatMap_append, List.flatMap_append, List.flatMap_append, hentries]
    simp
  have hsorted := h.stands.entries
  rw [hflat] at hsorted ⊢
  refine h.stands.turned h.others ha ht.same ht.linked ht.changed (fun id hid => ?_) hrep hupper (fun new hnew => ?_) hsorted hlow hlows
    fun new hnew => ⟨(hsizes new hnew).1, fun _ => (hsizes new hnew).2⟩
  · rw [ownIds, List.mem_append, List.mem_cons] at hid
    rcases hid with (rfl | hid) | hid
    · simp [ownIds]
    · obtain ⟨item, hitem, rfl⟩ := List.mem_map.mp hid
      obtain ⟨leaf, hleaf, rfl⟩ := List.mem_map.mp hitem
      simp only [List.mem_append, List.mem_cons] at hleaf
      rcases hleaf with (hleaf | rfl | hleaf) | hleaf
      · exact mem_own_leaf (by simp [hleaf])
      · exact (show leaf.item.2 = a.id from ha) ▸ mem_own_leaf (by simp)
      · exact (show leaf.item.2 = b.id from hmid leaf hleaf) ▸ mem_own_leaf (by simp)
      · exact mem_own_leaf (by simp [hleaf])
    · exact mem_own_inner (ht.ids ▸ hid)
  · rw [hmid new hnew]
    exact h.stands.valid b (by simp)

end LeafPair

theorem LeafPair.does_fromLeft {pq : PageId} (h : LeafPair tree s (some b.id) rest xs a b ys first q last ps qs)
    (hnq : s q.id = some (.node (Inner.node q pq))) (hshort : b.entries.length + 1 = (tree.config.leafMaxKeys + 1) / 2) :
    (BPlusTree.rebalanceLeafFromLeft b.id (b.node q.id (firstId ys .invalid)) (Inner.node q pq) (ps.length + 1)
      ((tree.config.leafMaxKeys + 1) / 2)).Does tree s fun _ tree' s' =>
        Turned tree tree' s s' ((first ++ q :: last) :: rest) (xs ++ a :: [b] ++ ys) ((xs ++ a :: [b] ++ ys).flatMap Leaf.entries) := by
  obtain ⟨hna, hnb, -⟩ := h.nodes
  obtain ⟨hleft, -, -, hcount⟩ := h.siblings.reads pq
  obtain ⟨hkeysCount, hchildrenCount, herase⟩ := h.siblings.erase_node pq
  have haccepted := h.stands.upper.accepted
  have hleafMax := haccepted.leaf
  have hqsize := (h.stands.upper.filled.1 q (by simp)).1
  have hab := h.ids_ne
  have haq := h.parent_ne (l := a) (by simp)
  have hbq := h.parent_ne (l := b) (by simp)
  have hhole : (some b.id : Option PageId) ≠ some a.id := fun heq => hab (Option.some.inj heq).symm
  have hasize := h.stands.sizes a (by simp)
  have hamin := hasize.2 (by simp)
  rw [if_neg hhole] at hamin
  have halow : xs ≠ [] → ∃ value rest, a.entries = (a.low, value) :: rest := fun hne =>
    h.stands.lows a (by rw [List.append_assoc, List.tail_append_of_ne_nil hne]; simp) hhole
  rw [BPlusTree.rebalanceLeafFromLeft, Nat.add_sub_cancel]
  apply does_bind
  refine does_getAt (a := a.id) hleft ?_
  apply does_bind
  refine does_readNode hna fun _ => ?_
  have hlength : (a.node q.id b.id).keys.length = a.entries.length := List.length_map _
  rw [hlength]
  by_cases hmany : a.entries.length > (tree.config.leafMaxKeys + 1) / 2
  · rw [if_pos hmany]
    obtain ⟨entries, e, hae⟩ : ∃ entries e, a.entries = entries ++ [e] := by
      rcases List.eq_nil_or_concat a.entries with hnil | ⟨entries, e, hconcat⟩
      · rw [hnil] at hmany
        simp at hmany
      · exact ⟨entries, e, by rw [hconcat, List.concat_eq_append]⟩
    have haeLength : a.entries.length = entries.length + 1 := by simp [hae]
    obtain ⟨a', ha'⟩ : ∃ a' : Leaf, a' = ⟨a.id, a.low, entries⟩ := ⟨_, rfl⟩
    obtain ⟨b', hb'⟩ : ∃ b' : Leaf, b' = ⟨b.id, e.1, e :: b.entries⟩ := ⟨_, rfl⟩
    have hnodeA : { a.node q.id b.id with
        keys := (a.node q.id b.id).keys.dropLast
        values := (a.node q.id b.id).values.dropLast } = a'.node q.id b.id := by
      simp [Leaf.node, hae, ha']
    have hnodeB : { b.node q.id (firstId ys .invalid) with
        keys := e.1 :: (b.node q.id (firstId ys .invalid)).keys
        values := e.2 :: (b.node q.id (firstId ys .invalid)).values } = b'.node q.id (firstId ys .invalid) := by
      rw [hb']
      rfl
    apply does_bind
    refine does_back (a := e.1) (by simp [Leaf.node, hae]) ?_
    apply does_bind
    refine does_back (a := e.2) (by simp [Leaf.node, hae]) ?_
    apply does_bind
    refine does_setAt hcount ?_
    rw [hnodeA, hnodeB, h.siblings.set_node]
    apply does_bind
    refine does_writeLeaf a' q.id b.id haccepted (by simp [hna]) rfl (by rw [ha']; simp only; omega) ?_
    apply does_bind
    refine does_writeLeaf b' q.id (firstId ys .invalid) haccepted (by rw [Store.write_of_ne hab.symm]; simp [hnb]) rfl
      (by rw [hb']; simp only [List.length_cons]; omega) ?_
    refine does_writeInner (p := q.id) _ pq haccepted (by rw [Store.write_of_ne hbq.symm, Store.write_of_ne haq.symm]; simp [hnq]) rfl
      (by simpa using hqsize) ?_
    have hredone := h.redone_shift a' b' hnq (by rw [ha']) (by rw [hb']) e.1 rfl rfl
    have hitems : (xs ++ a' :: [b'] ++ ys).map Leaf.item = xs.map Leaf.item ++ a.item :: (e.1, b.id) :: ys.map Leaf.item := by
      simp [ha', hb', Leaf.item]
    refine h.turned hredone (by rw [ha']) (by simp [hb']) (repaired_refl _ _ _ _) (by rw [hitems]; exact hredone.upper)
      (by simp [ha', hb', hae]) (fun hne => ?_) ?_ ?_
    · obtain ⟨value, tail, hlow⟩ := halow hne
      obtain ⟨first, entries, rfl⟩ := List.exists_cons_of_ne_nil (l := entries) (by rintro rfl; simp at haeLength; omega)
      rw [hae] at hlow
      obtain ⟨rfl, -⟩ := List.cons.inj hlow
      exact ⟨value, entries, by rw [ha']⟩
    · simp only [List.mem_singleton, forall_eq, hb']
      exact ⟨e.2, b.entries, rfl⟩
    · simp only [List.mem_cons, List.not_mem_nil, or_false, forall_eq_or_imp, forall_eq, ha', hb', List.length_cons]
      omega
  · rw [if_neg hmany]
    obtain ⟨a', ha'⟩ : ∃ a' : Leaf, a' = ⟨a.id, a.low, a.entries ++ b.entries⟩ := ⟨_, rfl⟩
    obtain ⟨q', hq'⟩ : ∃ q' : Inner, q' = ⟨q.id, q.head, q.rest.eraseIdx ps.length⟩ := ⟨_, rfl⟩
    rw [← hq'] at herase
    have hnodeA : { a.node q.id b.id with
        next := (b.node q.id (firstId ys .invalid)).next
        keys := (a.node q.id b.id).keys ++ (b.node q.id (firstId ys .invalid)).keys
        values := (a.node q.id b.id).values ++ (b.node q.id (firstId ys .invalid)).values } = a'.node q.id (firstId ys .invalid) := by
      simp [Leaf.node, ha']
    apply does_bind
    refine does_eraseAt hkeysCount ?_
    apply does_bind
    refine does_eraseAt hchildrenCount ?_
    rw [hnodeA, herase]
    apply does_bind
    refine does_writeLeaf a' q.id (firstId ys .invalid) haccepted (by simp [hna]) rfl
      (by rw [ha']; simp only [List.length_append]; omega) ?_
    apply does_bind
    refine does_writeInner (p := q.id) q' pq haccepted (by rw [Store.write_of_ne haq.symm]; simp [hnq]) rfl
      (by rw [hq']; exact (List.length_eraseIdx_le _ _).trans hqsize) ?_
    have hredone := h.redone_merge a' hnq (by rw [ha']) hq' rfl
    have hitems : (xs ++ a' :: [] ++ ys).map Leaf.item = xs.map Leaf.item ++ a.item :: ys.map Leaf.item := by
      simp [ha', Leaf.item]
    have hupper := hredone.upper
    have hqid : q'.id = q.id := by rw [hq']
    rw [← hqid, ← hitems] at hupper
    have hclimb := does_rebalanceInternal hupper hupper.up.length_lt
    rw [hqid] at hclimb
    refine hclimb.mono ?_
    rintro _ tree' s' ⟨levels', hupper', hrep⟩
    refine h.turned hredone (by rw [ha']) (by simp) hrep hupper' (by simp [ha']) (fun hne => ?_) (by simp) ?_
    · obtain ⟨value, tail, hlow⟩ := halow hne
      exact ⟨value, tail ++ b.entries, by rw [ha']; simp [hlow]⟩
    · simp only [List.mem_singleton, forall_eq, ha', List.length_append]
      omega

theorem LeafPair.does_fromRight {pq : PageId} (h : LeafPair tree s (some a.id) rest xs a b ys first q last [] qs)
    (hnq : s q.id = some (.node (Inner.node q pq))) (hshort : a.entries.length + 1 = (tree.config.leafMaxKeys + 1) / 2) :
    (BPlusTree.rebalanceLeafFromRight a.id (a.node q.id b.id) (Inner.node q pq) 0
      ((tree.config.leafMaxKeys + 1) / 2)).Does tree s fun _ tree' s' =>
        Turned tree tree' s s' ((first ++ q :: last) :: rest) (xs ++ a :: [b] ++ ys) ((xs ++ a :: [b] ++ ys).flatMap Leaf.entries) := by
  obtain ⟨hna, hnb, -⟩ := h.nodes
  obtain ⟨-, hright, -, hcount⟩ := h.siblings.reads pq
  obtain ⟨hkeysCount, hchildrenCount, herase⟩ := h.siblings.erase_node pq
  obtain ⟨-, hitems, hfirst, hlast⟩ := h.siblings
  obtain ⟨hhead, hrest⟩ := List.cons.inj hitems
  rw [List.append_nil] at hfirst
  have haccepted := h.stands.upper.accepted
  have hleafMax := haccepted.leaf
  have hqsize := (h.stands.upper.filled.1 q (by simp)).1
  have hab := h.ids_ne
  have haq := h.parent_ne (l := a) (by simp)
  have hbq := h.parent_ne (l := b) (by simp)
  have hhole : (some a.id : Option PageId) ≠ some b.id := fun heq => hab (Option.some.inj heq)
  have hbsize := h.stands.sizes b (by simp)
  have hbmin := hbsize.2 (by simp)
  rw [if_neg hhole] at hbmin
  rw [BPlusTree.rebalanceLeafFromRight]
  apply does_bind
  refine does_getAt (a := b.id) hright ?_
  apply does_bind
  refine does_readNode hnb fun _ => ?_
  have hlength : (b.node q.id (firstId ys .invalid)).keys.length = b.entries.length := List.length_map _
  rw [hlength]
  by_cases hmany : b.entries.length > (tree.config.leafMaxKeys + 1) / 2
  · rw [if_pos hmany]
    obtain ⟨e, second, entries, hbe⟩ : ∃ e second entries, b.entries = e :: second :: entries := by
      rcases hb : b.entries with _ | ⟨e, _ | ⟨second, entries⟩⟩
      · rw [hb] at hmany
        simp at hmany
      · rw [hb] at hmany
        simp only [List.length_cons, List.length_nil] at hmany
        omega
      · exact ⟨e, second, entries, rfl⟩
    have hbeLength : b.entries.length = entries.length + 2 := by simp [hbe]
    obtain ⟨low, tail, hlow⟩ : ∃ low tail, a.entries ++ [e] = low :: tail := List.exists_cons_of_ne_nil (by simp)
    obtain ⟨a', ha'⟩ : ∃ a' : Leaf, a' = ⟨a.id, low.1, a.entries ++ [e]⟩ := ⟨_, rfl⟩
    obtain ⟨b', hb'⟩ : ∃ b' : Leaf, b' = ⟨b.id, second.1, second :: entries⟩ := ⟨_, rfl⟩
    obtain ⟨q', hq'⟩ : ∃ q' : Inner, q' = ⟨q.id, q.head, q.rest.set ([] : List Item).length (second.1, b.id)⟩ := ⟨_, rfl⟩
    have hqid : q'.id = q.id := by rw [hq']
    have hset := h.siblings.set_node pq second.1
    have hnodeA : { a.node q.id b.id with
        keys := (a.node q.id b.id).keys ++ [e.1]
        values := (a.node q.id b.id).values ++ [e.2] } = a'.node q.id b.id := by
      simp [Leaf.node, ha']
    have hnodeB : { b.node q.id (firstId ys .invalid) with
        keys := (b.node q.id (firstId ys .invalid)).keys.tail
        values := (b.node q.id (firstId ys .invalid)).values.tail } = b'.node q.id (firstId ys .invalid) := by
      simp [Leaf.node, hbe, hb']
    apply does_bind
    refine does_front (a := e.1) (by simp [Leaf.node, hbe]) ?_
    apply does_bind
    refine does_front (a := e.2) (by simp [Leaf.node, hbe]) ?_
    apply does_bind
    refine does_front (a := second.1) (by simp [Leaf.node, hbe]) ?_
    apply does_bind
    refine does_setAt hcount ?_
    rw [List.length_nil] at hset
    rw [hnodeA, hnodeB, hset]
    apply does_bind
    refine does_writeLeaf a' q.id b.id haccepted (by simp [hna]) rfl (by rw [ha']; simp only [List.length_append, List.length_singleton]; omega) ?_
    apply does_bind
    refine does_writeLeaf b' q.id (firstId ys .invalid) haccepted (by rw [Store.write_of_ne hab.symm]; simp [hnb]) rfl
      (by rw [hb']; simp only [List.length_cons]; omega) ?_
    apply does_bind
    refine does_writeInner (p := q.id) q' pq haccepted (by rw [Store.write_of_ne hbq.symm, Store.write_of_ne haq.symm]; simp [hnq])
      (by rw [hq']; rfl) (by rw [hq']; simpa using hqsize) ?_
    apply does_bind
    have hkeys : (a.node q.id b.id).keys ++ [e.1] = (a.entries ++ [e]).map Prod.fst := by simp [Leaf.node]
    refine does_front (a := low.1) (by rw [hkeys, hlow]; rfl) ?_
    have hredone := h.redone_shift a' b' hnq (by rw [ha']) (by rw [hb']) second.1 hq' rfl
    have hnewItems : (xs ++ a' :: [b'] ++ ys).map Leaf.item =
        first.flatMap Group.items ++ (low.1, q'.head.2) :: (q'.rest ++ last.flatMap Group.items) := by
      simp [ha', hb', hq', hrest, hhead, hfirst, hlast, Leaf.item]
    have hnewIds : ((xs ++ a' :: [b'] ++ ys).map Leaf.item).map Prod.snd =
        (xs.map Leaf.item ++ a.item :: (second.1, b.id) :: ys.map Leaf.item).map Prod.snd := by
      simp [ha', hb', Leaf.item]
    have hupdate := does_updateFirst hredone.upper low.1
    rw [hqid] at hupdate
    refine hupdate.mono ?_
    rintro _ tree' s' ⟨rfl, rest', hup, hrep, -⟩
    rw [← hnewIds] at hrep
    rw [← hnewItems] at hup
    refine h.turned hredone (by rw [ha']) (by simp [hb']) hrep hup (by simp [ha', hb', hbe]) (fun _ => ?_) ?_ ?_
    · exact ⟨low.2, tail, by rw [ha']; exact hlow⟩
    · simp only [List.mem_singleton, forall_eq, hb']
      exact ⟨second.2, entries, rfl⟩
    · simp only [List.mem_cons, List.not_mem_nil, or_false, forall_eq_or_imp, forall_eq, ha', hb', List.length_cons,
        List.length_append, List.length_nil]
      omega
  · rw [if_neg hmany]
    obtain ⟨low, tail, hlow⟩ : ∃ low tail, a.entries ++ b.entries = low :: tail := List.exists_cons_of_ne_nil fun hnil => by
      have hempty := congrArg List.length (List.append_eq_nil_iff.mp hnil).2
      rw [List.length_nil] at hempty
      omega
    obtain ⟨a', ha'⟩ : ∃ a' : Leaf, a' = ⟨a.id, low.1, a.entries ++ b.entries⟩ := ⟨_, rfl⟩
    obtain ⟨q', hq'⟩ : ∃ q' : Inner, q' = ⟨q.id, q.head, q.rest.eraseIdx ([] : List Item).length⟩ := ⟨_, rfl⟩
    have hqid : q'.id = q.id := by rw [hq']
    rw [← hq', List.length_nil] at herase
    have hnodeA : { a.node q.id b.id with
        next := (b.node q.id (firstId ys .invalid)).next
        keys := (a.node q.id b.id).keys ++ (b.node q.id (firstId ys .invalid)).keys
        values := (a.node q.id b.id).values ++ (b.node q.id (firstId ys .invalid)).values } = a'.node q.id (firstId ys .invalid) := by
      simp [Leaf.node, ha']
    apply does_bind
    refine does_eraseAt hkeysCount ?_
    apply does_bind
    refine does_eraseAt hchildrenCount ?_
    rw [hnodeA, herase]
    apply does_bind
    refine does_writeLeaf a' q.id (firstId ys .invalid) haccepted (by simp [hna]) rfl
      (by rw [ha']; simp only [List.length_append]; omega) ?_
    apply does_bind
    refine does_writeInner (p := q.id) q' pq haccepted (by rw [Store.write_of_ne haq.symm]; simp [hnq]) rfl
      (by rw [hq']; exact (List.length_eraseIdx_le _ _).trans hqsize) ?_
    apply does_bind
    have hkeys : (a.node q.id b.id).keys ++ (b.node q.id (firstId ys .invalid)).keys = (a.entries ++ b.entries).map Prod.fst := by
      simp [Leaf.node]
    refine does_front (a := low.1) (by rw [hkeys, hlow]; rfl) ?_
    have hredone := h.redone_merge a' hnq (by rw [ha']) hq' rfl
    have hnewItems : (xs ++ a' :: [] ++ ys).map Leaf.item =
        first.flatMap Group.items ++ (low.1, q'.head.2) :: (q'.rest ++ last.flatMap Group.items) := by
      simp [ha', hq', hrest, hhead, hfirst, hlast, Leaf.item]
    have hnewIds : ((xs ++ a' :: [] ++ ys).map Leaf.item).map Prod.snd =
        (xs.map Leaf.item ++ a.item :: ys.map Leaf.item).map Prod.snd := by
      simp [ha', Leaf.item]
    apply does_bind
    have hupdate := does_updateFirst hredone.upper low.1
    rw [hqid] at hupdate
    refine hupdate.mono ?_
    rintro _ tree₁ t ⟨rfl, rest', hup, hrep, -⟩
    rw [← hnewIds] at hrep
    rw [← hnewItems, ← hqid] at hup
    have hwithFirst : (q'.withFirst low.1).id = q.id := hqid
    have hclimb := does_rebalanceInternal (g := q'.withFirst low.1) hup hup.up.length_lt
    rw [hwithFirst] at hclimb
    refine hclimb.mono ?_
    rintro _ tree' s' ⟨levels', hup', hrep'⟩
    refine h.turned hredone (by rw [ha']) (by simp) (hrep.trans hrep') hup' (by simp [ha']) (fun _ => ?_) (by simp) ?_
    · exact ⟨low.2, tail, by rw [ha']; exact hlow⟩
    · simp only [List.mem_singleton, forall_eq, ha', List.length_append]
      omega

/-! ## `rebalance_leaf` and `remove` -/

namespace Stands

theorem does_rebalanceLeaf (h : Stands tree s (some l.id) levels (xs ++ l :: ys)) (hlevels : levels ≠ [])
    (hshort : l.entries.length + 1 = (tree.config.leafMaxKeys + 1) / 2) :
    (BPlusTree.rebalanceLeaf l.id).Does tree s fun _ tree' s' =>
      Turned tree tree' s s' levels (xs ++ l :: ys) ((xs ++ l :: ys).flatMap Leaf.entries) := by
  obtain ⟨up, rest, rfl⟩ := List.exists_cons_of_ne_nil hlevels
  have hupper := h.upper
  rw [List.map_append, List.map_cons] at hupper
  obtain ⟨first, q, last, ps, qs, rfl, hinner, hmem, hcases⟩ := hupper.siblings
  obtain ⟨pq, hnq⟩ := hinner.node
  obtain ⟨parent, hnode⟩ := (linked_append.mp h.linked).2.1
  obtain rfl : parent = q.id := HasParent.unique ⟨_, hnode, rfl⟩ (hinner.children _ hmem)
  have hother : ∀ other ∈ xs ++ ys, (some l.id : Option PageId) ≠ some other.id := fun other hin heq =>
    h.leaf_ne hin (Option.some.inj heq).symm
  apply does_bind
  refine does_readNode hnode fun _ => ?_
  apply does_bind
  refine does_readNode (p := q.id) hnq fun _ => ?_
  apply does_bind
  apply does_get
  dsimp only
  rcases hcases with ⟨xs', x, hxs, hindex, hsib⟩ | ⟨y, ys', hys, hindex, rfl, hsib⟩
  · obtain ⟨xs, tail, rfl, rfl, htail⟩ := List.map_eq_append_iff.mp hxs
    obtain ⟨a, rfl, rfl⟩ := List.map_eq_singleton_iff.mp htail
    have hlist : xs ++ [a] ++ l :: ys = xs ++ a :: [l] ++ ys := by simp
    have hindex : (Inner.node q pq).children.idxOf l.id = ps.length + 1 := hindex
    rw [hlist] at h ⊢
    have hpair : LeafPair tree s (some l.id) rest xs a l ys first q last ps qs :=
      ⟨h, hsib, fun other hin => hother other (by simp only [List.mem_append] at hin ⊢; tauto)⟩
    rw [hindex, if_pos (Nat.succ_pos _)]
    exact hpair.does_fromLeft hnq hshort
  · obtain ⟨b, ys, rfl, rfl, rfl⟩ := List.map_eq_cons_iff.mp hys
    have hlist : xs ++ l :: b :: ys = xs ++ l :: [b] ++ ys := by simp
    have hindex : (Inner.node q pq).children.idxOf l.id = 0 := hindex
    rw [hlist] at h ⊢
    have hpair : LeafPair tree s (some l.id) rest xs l b ys first q last [] qs :=
      ⟨h, hsib, fun other hin => hother other (by simp only [List.mem_append, List.mem_cons] at hin ⊢; tauto)⟩
    rw [hindex, if_neg (Nat.lt_irrefl 0)]
    exact hpair.does_fromRight hnq hshort

theorem root_iff (h : Stands tree s hole levels (xs ++ l :: ys)) : l.id = tree.root ↔ levels = [] := by
  constructor
  · intro hroot
    by_contra hne
    have hmem := h.upper.root_mem hne
    exact (h.upper.items_apart (p := l.id) (List.mem_map_of_mem (List.mem_map_of_mem (by simp)))).1 (hroot ▸ hmem)
  · rintro rfl
    exact h.eq_singleton.2.2

/-- The leaf has lost an entry and is as full as it should be. -/
theorem turned_remove {parent : PageId} {ps qs : List Entry} {e : Entry} (h : Stands tree s none levels (xs ++ l :: ys)) (low : KeyType)
    (hnode : s l.id = some (.node (l.node parent (firstId ys .invalid)))) (hsplit : l.entries = ps ++ e :: qs)
    (hrep : Repaired tree tree (s.write l.id (Leaf.node ⟨l.id, low, ps ++ qs⟩ parent (firstId ys .invalid))) s'
      (((xs ++ l :: ys).map Leaf.item).map Prod.snd) levels levels')
    (hupper : Upper tree s' none levels' ((xs ++ ⟨l.id, low, ps ++ qs⟩ :: ys).map Leaf.item))
    (hlow : xs ≠ [] → ∃ value rest, ps ++ qs = (low, value) :: rest)
    (hmin : levels' ≠ [] → (tree.config.leafMaxKeys + 1) / 2 ≤ (ps ++ qs).length) :
    Turned tree tree s s' levels (xs ++ l :: ys) ((xs.flatMap Leaf.entries ++ ps) ++ (qs ++ ys.flatMap Leaf.entries)) := by
  have hsize := (h.sizes l (by simp)).1
  have hflat : (xs ++ ⟨l.id, low, ps ++ qs⟩ :: ys).flatMap Leaf.entries =
      (xs.flatMap Leaf.entries ++ ps) ++ (qs ++ ys.flatMap Leaf.entries) := by simp
  have hsorted := h.entries
  rw [List.flatMap_append, List.flatMap_cons, hsplit] at hsorted
  rw [hsplit] at hsize
  rw [← hflat]
  refine h.turned_write hnode rfl hrep hupper (hsorted.sublist ?_) hlow ⟨?_, hmin⟩
  · rw [List.flatMap_append, List.flatMap_cons]
    refine List.Sublist.append_left (List.Sublist.append_right ?_ _) _
    exact List.Sublist.append_left (List.sublist_cons_self _ _) _
  · simp only [List.length_append, List.length_cons] at hsize ⊢
    omega

/-- The leaf lacks an entry for now. -/
theorem lacking {parent : PageId} {ps qs : List Entry} {e : Entry} (h : Stands tree s none levels (xs ++ l :: ys))
    (hnode : s l.id = some (.node (l.node parent (firstId ys .invalid)))) (hsplit : l.entries = ps ++ e :: qs) :
    Stands tree (s.write l.id (Leaf.node ⟨l.id, l.low, ps ++ qs⟩ parent (firstId ys .invalid))) (some l.id) levels
      (xs ++ ⟨l.id, l.low, ps ++ qs⟩ :: ys) := by
  have hsize := h.sizes l (by simp)
  have hsorted := h.entries
  have hmem : l.id ∈ ((xs ++ l :: ys).map Leaf.item).map Prod.snd := List.mem_map_of_mem (List.mem_map_of_mem (by simp))
  have hup : Upper tree (s.write l.id (Leaf.node ⟨l.id, l.low, ps ++ qs⟩ parent (firstId ys .invalid))) none levels
      ((xs ++ l :: ys).map Leaf.item) := h.upper.write_item hmem _ hnode rfl
  have hlist : ∀ leaf : Leaf, xs ++ leaf :: ys = xs ++ leaf :: [] ++ ys := fun leaf => by simp
  have hlength : l.entries.length = (ps ++ qs).length + 1 := by
    rw [hsplit]
    simp
    omega
  have hne : ∀ other ∈ xs ++ ys, other.id ≠ l.id := fun other => h.leaf_ne
  simp only [reduceCtorEq, if_false] at hsize
  rw [List.flatMap_append, List.flatMap_cons, hsplit] at hsorted
  rw [hlist] at h ⊢
  refine h.segment rfl rfl ?_ ⟨⟨parent, Store.write_self _ _ _⟩, trivial⟩ (fun other hother => ⟨by simp, ?_, fun node hold => ?_⟩) (by simp)
    (hsorted.sublist ?_) (fun _ hcontra => absurd rfl hcontra) (by simp) ?_
  · rw [← hlist]
    have hitems : (xs ++ ⟨l.id, l.low, ps ++ qs⟩ :: ys).map Leaf.item = (xs ++ l :: ys).map Leaf.item := by simp [Leaf.item]
    rw [hitems]
    exact hup
  · exact fun heq => hne other hother (Option.some.inj heq).symm
  · exact ⟨node.parent, by rw [Store.write_of_ne (hne other hother)]; exact hold⟩
  · rw [← hlist, List.flatMap_append, List.flatMap_cons]
    refine List.Sublist.append_left (List.Sublist.append_right ?_ _) _
    exact List.Sublist.append_left (List.sublist_cons_self _ _) _
  · simp only [List.mem_singleton, forall_eq, if_true]
    exact ⟨by omega, fun hlevels => hlength ▸ hsize.2 hlevels⟩

/-- What `remove` does with the leaf of the entry. -/
theorem does_removeEntry {parent : PageId} {ps qs : List Entry} {e : Entry} (h : Stands tree s none levels (xs ++ l :: ys))
    (hnode : s l.id = some (.node (l.node parent (firstId ys .invalid)))) (hsplit : l.entries = ps ++ e :: qs) :
    TreeOp.Does (do
      BPlusTree.writeNode l.id (Leaf.node ⟨l.id, l.low, ps ++ qs⟩ parent (firstId ys .invalid))
      if l.id = tree.root then return true
      else if ((ps ++ qs).map Prod.fst).length ≥ (tree.config.leafMaxKeys + 1) / 2 then
        if ps.length = 0 ∧ ((ps ++ qs).map Prod.fst).isEmpty = false then
          let first ← front ((ps ++ qs).map Prod.fst)
          BPlusTree.updateParentSeparator (2 ^ 64) l.id first
        return true
      else
        BPlusTree.rebalanceLeaf l.id
        return true) tree s fun removed tree' s' => removed = true ∧
          Turned tree tree' s s' levels (xs ++ l :: ys) ((xs.flatMap Leaf.entries ++ ps) ++ (qs ++ ys.flatMap Leaf.entries)) := by
  have hsize := h.sizes l (by simp)
  have hleafMax := h.upper.accepted.leaf
  have hlength : l.entries.length = (ps ++ qs).length + 1 := by
    rw [hsplit]
    simp
    omega
  simp only [reduceCtorEq, if_false] at hsize
  have hmem : l.id ∈ ((xs ++ l :: ys).map Leaf.item).map Prod.snd := List.mem_map_of_mem (List.mem_map_of_mem (by simp))
  have hup : Upper tree (s.write l.id (Leaf.node ⟨l.id, l.low, ps ++ qs⟩ parent (firstId ys .invalid))) none levels
      ((xs ++ l :: ys).map Leaf.item) := h.upper.write_item hmem _ hnode rfl
  have hitems : (xs ++ ⟨l.id, l.low, ps ++ qs⟩ :: ys).map Leaf.item = (xs ++ l :: ys).map Leaf.item := by simp [Leaf.item]
  apply does_bind
  refine does_writeLeaf _ parent (firstId ys .invalid) h.upper.accepted (by simp [hnode]) rfl (by simp only; omega) ?_
  by_cases hroot : l.id = tree.root
  · rw [if_pos hroot]
    obtain rfl := h.root_iff.mp hroot
    obtain ⟨rfl, rfl, -⟩ := h.eq_singleton
    refine does_pure ⟨rfl, h.turned_remove _ hnode hsplit (repaired_refl _ _ _ _) (by rw [hitems]; exact hup) (fun hne => absurd rfl hne)
      fun hne => absurd rfl hne⟩
  · rw [if_neg hroot]
    have hlevels : levels ≠ [] := fun hnil => hroot (h.root_iff.mpr hnil)
    have hmin := hsize.2 hlevels
    rw [List.length_map]
    by_cases hfull : (ps ++ qs).length ≥ (tree.config.leafMaxKeys + 1) / 2
    · rw [if_pos hfull]
      obtain ⟨first, tail, hfirst⟩ : ∃ first tail, ps ++ qs = first :: tail := List.exists_cons_of_ne_nil fun hnil => by
        rw [hnil, List.length_nil] at hfull
        omega
      by_cases hps : ps = []
      · subst hps
        rw [if_pos ⟨rfl, by rw [hfirst]; rfl⟩]
        rw [List.map_append, List.map_cons] at hup
        apply does_bind
        refine does_front (a := first.1) (by rw [hfirst]; rfl) ?_
        apply does_bind
        refine (does_updateParentSeparator hup first.1 h.upper.length_lt).mono ?_
        rintro _ tree' s' ⟨rfl, levels', hup', hrep, -⟩
        refine does_pure ⟨rfl, ?_⟩
        refine h.turned_remove first.1 hnode hsplit (by rw [List.map_append, List.map_cons]; exact hrep)
          (by simpa [Leaf.item] using hup')
          (fun _ => ⟨first.2, tail, hfirst⟩) fun _ => hfull
      · rw [if_neg fun hcontra => hps (List.length_eq_zero_iff.mp hcontra.1)]
        refine does_pure ⟨rfl, h.turned_remove _ hnode hsplit (repaired_refl _ _ _ _) (by rw [hitems]; exact hup) (fun hne => ?_)
          fun _ => hfull⟩
        obtain ⟨value, rest, hl⟩ := h.low_of_ne_nil hne
        obtain ⟨p, ps, rfl⟩ := List.exists_cons_of_ne_nil hps
        rw [hsplit] at hl
        obtain ⟨rfl, -⟩ := List.cons.inj hl
        exact ⟨value, _, rfl⟩
    · rw [if_neg hfull]
      have hlacking := h.lacking hnode hsplit
      apply does_bind
      refine (does_rebalanceLeaf (l := ⟨l.id, l.low, ps ++ qs⟩) hlacking hlevels (by simp only; omega)).mono ?_
      rintro _ tree' s' ⟨levels', leaves', hstands, hentries, hchanged⟩
      refine does_pure ⟨rfl, levels', leaves', hstands, ?_, ?_⟩
      · rw [hentries]
        simp
      · have hown : ownIds tree levels (xs ++ ⟨l.id, l.low, ps ++ qs⟩ :: ys) = ownIds tree levels (xs ++ l :: ys) := by
          rw [ownIds, ownIds, hitems]
        rw [hown] at hchanged
        exact (changed_write (.inl (mem_own_leaf (by simp))) (by simp [hnode]) fun _ => .inl).trans hchanged

/-- A removal takes out the entry with the key if there is one, and otherwise does nothing. -/
theorem does_removeImpl (h : Stands tree s none levels leaves) (key : KeyType) :
    (BPlusTree.removeImpl key).Does tree s fun removed tree' s' =>
      (removed = false ∧ tree' = tree ∧ s' = s ∧ ∀ old, (key, old) ∉ leaves.flatMap Leaf.entries) ∨
      (removed = true ∧ ∃ before old after, leaves.flatMap Leaf.entries = before ++ (key, old) :: after ∧
        Turned tree tree' s s' levels leaves (before ++ after)) := by
  apply does_bind
  refine h.does_findLeaf key ?_
  rintro xs l ys rfl hrouted
  obtain ⟨parent, hnode⟩ := h.node_of_mem
  have hkeys : (l.node parent (firstId ys .invalid)).keys = l.entries.map Prod.fst := rfl
  have hvalues : (l.node parent (firstId ys .invalid)).values = l.entries.map Prod.snd := rfl
  apply does_bind
  refine does_readNode hnode fun _ => ?_
  dsimp only
  rw [hkeys, hvalues]
  rcases exists_place h.leaf_sorted key with
    ⟨ps, old, qs, hsplit, hplace, hfound, -, -⟩ | ⟨ps, qs, hsplit, hplace, hfound, hps, hqs⟩
  · rw [hplace, if_pos hfound]
    have heraseKeys : (l.entries.map Prod.fst).eraseIdx ps.length = (ps ++ qs).map Prod.fst := by
      rw [hsplit]
      simp [List.eraseIdx_append_of_length_le]
    have heraseValues : (l.entries.map Prod.snd).eraseIdx ps.length = (ps ++ qs).map Prod.snd := by
      rw [hsplit]
      simp [List.eraseIdx_append_of_length_le]
    have hlt : ps.length < l.entries.length := by
      rw [hsplit]
      simp
    have hflat : (xs ++ l :: ys).flatMap Leaf.entries =
        (xs.flatMap Leaf.entries ++ ps) ++ (key, old) :: (qs ++ ys.flatMap Leaf.entries) := by
      simp [hsplit]
    apply does_bind
    refine does_eraseAt (by simpa using hlt) ?_
    apply does_bind
    refine does_eraseAt (by simpa using hlt) ?_
    rw [heraseKeys, heraseValues]
    apply does_bind
    apply does_get
    exact (h.does_removeEntry hnode hsplit).mono fun _ _ _ hresult => .inr ⟨hresult.1, _, old, _, hflat, hresult.2⟩
  · rw [hplace, if_neg hfound]
    refine does_pure (.inl ⟨rfl, rfl, rfl, fun old hin => ?_⟩)
    rw [h.mem_entries_iff hrouted, hsplit] at hin
    exact not_mem_place hps hqs hin

end Stands

end Ddb.Index
