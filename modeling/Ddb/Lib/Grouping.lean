import Mathlib.Data.List.Pairwise
import Mathlib.Order.Lattice

/-!
# A list cut into groups

An ordered list of items, each a key and an id, is cut into groups. A group has an id of its own and never is empty, and it
stands for an item again: its id with the key of its first item. So the groups of one list are the items of the next, which
makes the levels of a search tree. `Routed` says where a key belongs in a list of items: behind the last item that is not
above it. To find that place in the list it is enough to find the group first and then the place in the group.
-/

namespace Ddb.Lib

theorem mem_middle {α : Type*} {x a : α} {pre post : List α} : x ∈ pre ++ a :: post ↔ x = a ∨ x ∈ pre ++ post := by
  simp only [List.mem_append, List.mem_cons, or_left_comm]

theorem mem_middle_pair {α : Type*} {x a b : α} {pre post : List α} :
    x ∈ pre ++ a :: b :: post ↔ x = a ∨ x = b ∨ x ∈ pre ++ post := by
  rw [mem_middle, mem_middle]

structure Group (κ ι : Type) where
  id : ι
  head : κ × ι
  rest : List (κ × ι)

namespace Group

variable {κ ι : Type}

def items (g : Group κ ι) : List (κ × ι) := g.head :: g.rest

/-- The group as an item of the level above. -/
def item (g : Group κ ι) : κ × ι := (g.head.1, g.id)

/-- The keys that tell the items apart; that of the first is not needed for it. -/
def keys (g : Group κ ι) : List κ := g.rest.map Prod.fst

def children (g : Group κ ι) : List ι := g.items.map Prod.snd

theorem children_length (g : Group κ ι) : g.children.length = g.keys.length + 1 := by
  simp [children, items, keys]

variable {level : List (Group κ ι)} {xs ys : List (κ × ι)} {x : κ × ι} {g : Group κ ι} {before after : List (Group κ ι)}

/-- The group of an item. -/
theorem exists_of_flatMap (h : level.flatMap items = xs ++ x :: ys) :
    ∃ before g after ps qs, level = before ++ g :: after ∧ g.items = ps ++ x :: qs ∧
      xs = before.flatMap items ++ ps ∧ ys = qs ++ after.flatMap items := by
  induction level generalizing xs with
  | nil => simp at h
  | cons g level ih =>
    rw [List.flatMap_cons, List.append_eq_append_iff] at h
    rcases h with ⟨ms, hxs, hrest⟩ | ⟨ms, hg, hrest⟩
    · obtain ⟨before, g', after, ps, qs, rfl, hg', rfl, rfl⟩ := ih hrest
      exact ⟨g :: before, g', after, ps, qs, rfl, hg', by rw [hxs, List.flatMap_cons, List.append_assoc], rfl⟩
    · cases ms with
      | nil =>
        obtain ⟨before, g', after, ps, qs, rfl, hg', hps, rfl⟩ := @ih [] hrest.symm
        obtain ⟨hbefore, rfl⟩ := List.append_eq_nil_iff.mp hps.symm
        refine ⟨g :: before, g', after, [], qs, rfl, hg', ?_, rfl⟩
        rw [List.flatMap_cons, hbefore, hg, List.append_nil, List.append_nil, List.append_nil]
      | cons y ms =>
        rw [List.cons_append] at hrest
        obtain ⟨rfl, rfl⟩ := List.cons.inj hrest
        exact ⟨[], g, level, xs, ms, rfl, hg, rfl, rfl⟩

theorem flatMap_ne_nil (h : level ≠ []) : level.flatMap items ≠ [] := by
  obtain ⟨g, level, rfl⟩ := List.exists_cons_of_ne_nil h
  simp [items]

theorem rest_sublist_tail : List.Sublist g.rest ((before ++ g :: after).flatMap items).tail := by
  rw [List.flatMap_append, List.flatMap_cons]
  cases hbefore : before.flatMap items with
  | nil => exact List.sublist_append_left _ _
  | cons e es =>
    have hgroup : List.Sublist g.rest (g.items ++ after.flatMap items) :=
      (List.sublist_cons_self g.head g.rest).trans (List.sublist_append_left _ _)
    exact hgroup.trans (List.sublist_append_right es _)

/-! ## Order -/

variable [LinearOrder κ]

/-- Increasing in the keys. -/
def Sorted (xs : List (κ × ι)) : Prop := xs.Pairwise fun a b => a.1 < b.1

theorem sorted_append : Sorted (xs ++ ys) ↔ Sorted xs ∧ Sorted ys ∧ ∀ a ∈ xs, ∀ b ∈ ys, a.1 < b.1 := List.pairwise_append

/-- The groups of a sorted list are sorted. -/
theorem sorted_item (h : Sorted (level.flatMap items)) : Sorted (level.map item) := by
  induction level with
  | nil => exact .nil
  | cons g level ih =>
    rw [List.flatMap_cons, sorted_append] at h
    refine List.pairwise_cons.mpr ⟨fun other hother => ?_, ih h.2.1⟩
    obtain ⟨g', hg', rfl⟩ := List.mem_map.mp hother
    exact h.2.2 g.head List.mem_cons_self g'.head (List.mem_flatMap.mpr ⟨g', hg', List.mem_cons_self⟩)

/-- The same where the key of the first item does not count. -/
theorem sorted_item_tail (h : Sorted (level.flatMap items).tail) : Sorted (level.map item).tail := by
  cases level with
  | nil => exact .nil
  | cons g level =>
    change Sorted (g.rest ++ level.flatMap items) at h
    exact sorted_item (sorted_append.mp h).2.1

theorem sorted_rest (h : Sorted ((before ++ g :: after).flatMap items).tail) : Sorted g.rest := h.sublist rest_sublist_tail

theorem Sorted.of_mem (h : Sorted (level.flatMap items)) (hg : g ∈ level) : Sorted g.items := by
  obtain ⟨before, after, rfl⟩ := List.append_of_mem hg
  rw [List.flatMap_append, List.flatMap_cons, sorted_append, sorted_append] at h
  exact h.2.1.1

/-- A sorted list falls apart at a key. -/
theorem exists_cut (hsorted : Sorted xs) (key : κ) :
    ∃ ps qs, xs = ps ++ qs ∧ ps.length = (xs.map Prod.fst).findIdx (fun k => decide (key ≤ k)) ∧
      (∀ p ∈ ps, p.1 < key) ∧ ∀ q ∈ qs, key ≤ q.1 := by
  induction xs with
  | nil => exact ⟨[], [], rfl, rfl, by simp, by simp⟩
  | cons x xs ih =>
    obtain ⟨hfirst, hrest⟩ := List.pairwise_cons.mp hsorted
    by_cases hle : key ≤ x.1
    · refine ⟨[], x :: xs, rfl, by simp [List.findIdx_cons, hle], by simp, fun q hq => ?_⟩
      rcases List.mem_cons.mp hq with rfl | hq
      · exact hle
      · exact le_trans hle (le_of_lt (hfirst q hq))
    · obtain ⟨ps, qs, rfl, hlength, hps, hqs⟩ := ih hrest
      refine ⟨x :: ps, qs, rfl, ?_, fun p hp => ?_, hqs⟩
      · rw [List.map_cons, List.findIdx_cons]
        simp [hle, hlength]
      · rcases List.mem_cons.mp hp with rfl | hp
        · exact lt_of_not_ge hle
        · exact hps p hp

/-! ## Routing -/

/-- The key belongs to `x` among the items: it is not below `x`, unless `x` is the first, and below all that follow. -/
def Routed (key : κ) (xs : List (κ × ι)) (x : κ × ι) (ys : List (κ × ι)) : Prop :=
  (xs ≠ [] → x.1 ≤ key) ∧ ∀ y ∈ ys, key < y.1

/-- The first key above the one that is looked for tells the place in a group. -/
theorem exists_routed (hsorted : Sorted g.rest) (key : κ) :
    ∃ ps x qs, g.items = ps ++ x :: qs ∧ ps.length = g.keys.findIdx (fun k => decide (key < k)) ∧ Routed key ps x qs := by
  obtain ⟨i, hi⟩ : ∃ i, i = g.keys.findIdx fun k => decide (key < k) := ⟨_, rfl⟩
  have hle : i ≤ g.rest.length := by
    have hkeys : g.keys.length = g.rest.length := List.length_map _
    rw [hi, ← hkeys]
    exact List.findIdx_le_length
  have hlt : i < g.items.length := Nat.lt_succ_of_le hle
  refine ⟨g.items.take i, g.items[i], g.items.drop (i + 1), ?_, ?_, fun hne => ?_, fun y hy => ?_⟩
  · rw [List.getElem_cons_drop, List.take_append_drop]
  · rw [List.length_take, Nat.min_eq_left (Nat.le_of_lt hlt), hi]
  · -- The key before the place is not above.
    cases i with
    | zero => simp at hne
    | succ i =>
      have hnot := @List.not_of_lt_findIdx _ (fun k => decide (key < k)) g.keys i (by omega)
      simp only [keys, List.getElem_map, decide_eq_false_iff_not, not_lt] at hnot
      exact hnot
  · obtain ⟨j, hj, rfl⟩ := List.mem_iff_getElem.mp hy
    rw [List.length_drop] at hj
    have hkeys : i < g.keys.length := by
      have hlength : g.items.length = g.keys.length + 1 := by simp [items, keys]
      omega
    have hfound := @List.findIdx_getElem _ (fun k => decide (key < k)) g.keys (hi ▸ hkeys)
    have hfound : key < (g.items.get ⟨i + 1, by omega⟩).1 := by
      simp only [decide_eq_true_eq, ← hi] at hfound
      simpa [keys, items] using hfound
    rw [List.getElem_drop]
    rcases Nat.eq_zero_or_pos j with rfl | hpos
    · exact hfound
    · have hlength : g.items.length = g.rest.length + 1 := rfl
      have horder := List.pairwise_iff_getElem.mp hsorted i (i + j) (by omega) (by omega) (by omega)
      refine lt_trans hfound ?_
      simpa [items, Nat.add_right_comm i 1 j] using horder

/-- The place in the group is the place in the list. -/
theorem Routed.flatMap {ps qs : List (κ × ι)} {key : κ} (hsorted : Sorted ((before ++ g :: after).flatMap items).tail)
    (hitems : g.items = ps ++ x :: qs) (hgroup : Routed key (before.map item) g.item (after.map item))
    (h : Routed key ps x qs) : Routed key (before.flatMap items ++ ps) x (qs ++ after.flatMap items) := by
  refine ⟨fun hne => ?_, fun y hy => ?_⟩
  · by_cases hps : ps = []
    · subst hps
      obtain ⟨rfl, -⟩ := List.cons.inj hitems
      refine hgroup.1 fun hnil => hne ?_
      rw [List.map_eq_nil_iff.mp hnil]
      rfl
    · exact h.1 hps
  · rcases List.mem_append.mp hy with hy | hy
    · exact h.2 y hy
    · obtain ⟨g', hg', hy⟩ := List.mem_flatMap.mp hy
      have hhead : key < g'.head.1 := hgroup.2 g'.item (List.mem_map_of_mem hg')
      rcases List.mem_cons.mp hy with rfl | hy
      · exact hhead
      · have hsub : List.Sublist (after.flatMap items) ((before ++ g :: after).flatMap items).tail := by
          rw [List.flatMap_append, List.flatMap_cons]
          cases hbefore : before.flatMap items with
          | nil => exact List.sublist_append_right _ _
          | cons e es => exact (List.sublist_append_right _ _).trans (List.sublist_append_right _ _)
        have hitems := Sorted.of_mem (hsorted.sublist hsub) hg'
        exact lt_trans hhead (List.rel_of_pairwise_cons hitems hy)

end Group

end Ddb.Lib
