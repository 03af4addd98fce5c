import Mathlib.Data.List.Pairwise
import Mathlib.Data.List.Perm.Basic
import Mathlib.Data.List.Sort

/-!
# Stable sorting

For a comparison that is transitive and oriented there is exactly one way to sort a list stably: in order, and every class
of equal elements in the order it came in. Here it is computed by insertion, with a comparison that may throw; that the
result is the one of the merge sort of the standard library follows from there being only one.
-/

namespace Ddb.Lib

variable {α ε : Type} {cmp : α → α → Ordering}

/-- In order, and every class of equal elements as it was. -/
structure StableSorted (cmp : α → α → Ordering) (rows out : List α) : Prop where
  perm : out.Perm rows
  sorted : out.Pairwise fun a b => (cmp a b).isLE = true
  stable : ∀ x, out.filter (fun y => cmp x y == .eq) = rows.filter fun y => cmp x y == .eq

/-- Before the first element that is not below. -/
def insertStable (less : α → α → Except ε Bool) (x : α) : List α → Except ε (List α)
  | [] => .ok [x]
  | y :: rest => do
    if ← less y x then
      let rest ← insertStable less x rest
      return y :: rest
    else return x :: y :: rest

def stableSort (less : α → α → Except ε Bool) : List α → Except ε (List α)
  | [] => .ok []
  | x :: rest => do insertStable less x (← stableSort less rest)

variable [Std.TransCmp cmp] {x : α} {rows out out' : List α}

theorem isLE_of_not_lt {y : α} (h : cmp y x ≠ .lt) : (cmp x y).isLE = true := by
  have hswap : cmp x y = (cmp y x).swap := Std.OrientedCmp.eq_swap
  rw [hswap]
  cases hyx : cmp y x with
  | lt => exact absurd hyx h
  | eq => rfl
  | gt => rfl

theorem StableSorted.unique (h : StableSorted cmp rows out) (h' : StableSorted cmp rows out') : out = out' := by
  have hperm : out.Perm out' := h.perm.trans h'.perm.symm
  have hfilter : ∀ x, out.filter (fun y => cmp x y == .eq) = out'.filter fun y => cmp x y == .eq :=
    fun x => (h.stable x).trans (h'.stable x).symm
  have hsorted := h.sorted
  have hsorted' := h'.sorted
  clear h h'
  induction out generalizing out' with
  | nil => exact (List.nil_perm.mp hperm).symm
  | cons a rest ih =>
    cases out' with
    | nil => exact absurd hperm.symm (List.not_perm_nil_cons _ _)
    | cons b rest' =>
      obtain ⟨hle, hrest⟩ := List.pairwise_cons.mp hsorted
      obtain ⟨hle', hrest'⟩ := List.pairwise_cons.mp hsorted'
      have hself : cmp a a = .eq := Std.ReflCmp.compare_self
      have hab : cmp a b = .eq := by
        rcases List.mem_cons.mp (hperm.symm.subset List.mem_cons_self : b ∈ a :: rest) with rfl | hb
        · exact Std.ReflCmp.compare_self
        rcases List.mem_cons.mp (hperm.subset List.mem_cons_self : a ∈ b :: rest') with rfl | ha
        · exact Std.ReflCmp.compare_self
        exact Std.OrientedCmp.isLE_antisymm (hle b hb) (hle' a ha)
      -- Both heads come first in the class they share.
      have hheads := hfilter a
      rw [List.filter_cons_of_pos (by simp [hself]), List.filter_cons_of_pos (by simp [hab])] at hheads
      obtain ⟨rfl, -⟩ := List.cons.inj hheads
      refine congrArg (a :: ·) (ih (hperm.cons_inv) (fun x => ?_) hrest hrest')
      have hx := hfilter x
      rw [List.filter_cons, List.filter_cons] at hx
      split at hx
      · exact (List.cons.inj hx).2
      · exact hx

theorem stableSorted_mergeSort (cmp : α → α → Ordering) [Std.TransCmp cmp] (rows : List α) :
    StableSorted cmp rows (rows.mergeSort fun a b => (cmp a b).isLE) := by
  have htrans : ∀ a b c, (cmp a b).isLE = true → (cmp b c).isLE = true → (cmp a c).isLE = true :=
    fun _ _ _ => Std.TransCmp.isLE_trans
  have htotal : ∀ a b, ((cmp a b).isLE || (cmp b a).isLE) = true := by
    intro a b
    have hswap : cmp b a = (cmp a b).swap := Std.OrientedCmp.eq_swap
    rw [hswap]
    cases cmp a b <;> rfl
  have hperm := List.mergeSort_perm rows fun a b => (cmp a b).isLE
  refine ⟨hperm, List.pairwise_mergeSort htrans htotal rows, fun x => ?_⟩
  -- A class is a sublist in order, so it is a sublist of the result; there it is the whole class.
  have hclass : (rows.filter fun y => cmp x y == .eq).Pairwise fun a b => (cmp a b).isLE = true := by
    refine List.Pairwise.imp_of_mem ?_ (List.pairwise_of_forall (R := fun _ _ => True) fun _ _ => trivial)
    intro a b ha hb _
    have hxa : cmp x a = .eq := eq_of_beq (List.mem_filter.mp ha).2
    have hxb : cmp x b = .eq := eq_of_beq (List.mem_filter.mp hb).2
    rw [← Std.TransCmp.congr_left hxa, hxb]
    rfl
  have hsub := (List.sublist_mergeSort htrans htotal hclass List.filter_sublist).filter fun y => cmp x y == .eq
  rw [List.filter_filter, List.filter_congr (q := fun y => cmp x y == .eq) (by simp)] at hsub
  exact (hsub.eq_of_length (hperm.filter _).length_eq.symm).symm

/-- The insertion, with a comparison that does not throw. -/
theorem insertStable_ok {less : α → α → Except ε Bool} (hless : ∀ y ∈ out, less y x = .ok (cmp y x == .lt))
    (h : StableSorted cmp rows out) : ∃ out', insertStable less x out = .ok out' ∧ StableSorted cmp (x :: rows) out' := by
  have hgoal : ∃ out', insertStable less x out = .ok out' ∧ out'.Perm (x :: out) ∧
      out'.Pairwise (fun a b => (cmp a b).isLE = true) ∧
      ∀ z, out'.filter (fun y => cmp z y == .eq) = (x :: out).filter fun y => cmp z y == .eq := by
    have hsorted := h.sorted
    clear h
    induction out with
    | nil => exact ⟨[x], rfl, .refl _, List.pairwise_singleton _ _, fun _ => rfl⟩
    | cons y rest ih =>
      obtain ⟨hle, hrest⟩ := List.pairwise_cons.mp hsorted
      obtain ⟨hy, hothers⟩ := List.forall_mem_cons.mp hless
      rw [insertStable, hy]
      by_cases hlt : cmp y x = .lt
      · obtain ⟨out', hrun, hperm, hsorted', hstable⟩ := ih hothers hrest
        refine ⟨y :: out', ?_, ?_, ?_, fun z => ?_⟩
        · rw [hlt, hrun]
          rfl
        · exact (hperm.cons y).trans (.swap x y rest)
        · refine List.pairwise_cons.mpr ⟨fun b hb => ?_, hsorted'⟩
          rcases List.mem_cons.mp (hperm.subset hb) with rfl | hb
          · rw [hlt]
            rfl
          · exact hle b hb
        · -- The two that change places are in different classes.
          have hne : ¬ ((cmp z y == .eq) = true ∧ (cmp z x == .eq) = true) := by
            rintro ⟨hzy, hzx⟩
            rw [Std.TransCmp.congr_left (Std.OrientedCmp.eq_symm (eq_of_beq hzy)), eq_of_beq hzx] at hlt
            cases hlt
          rw [List.filter_cons, hstable z]
          simp only [List.filter_cons]
          split <;> split <;> simp_all
      · refine ⟨x :: y :: rest, ?_, .refl _, List.pairwise_cons.mpr ⟨fun b hb => ?_, hsorted⟩, fun _ => rfl⟩
        · cases hcmp : cmp y x with
          | lt => exact absurd hcmp hlt
          | eq => rfl
          | gt => rfl
        · have hxy := isLE_of_not_lt hlt
          rcases List.mem_cons.mp hb with rfl | hb
          · exact hxy
          · exact Std.TransCmp.isLE_trans hxy (hle b hb)
  obtain ⟨out', hrun, hperm, hsorted, hstable⟩ := hgoal
  refine ⟨out', hrun, hperm.trans (h.perm.cons x), hsorted, fun z => ?_⟩
  rw [hstable z, List.filter_cons, List.filter_cons, h.stable z]

/-- With a comparison that does not throw, sorting by insertion is the merge sort of the standard library. -/
theorem stableSort_ok {less : α → α → Except ε Bool}
    (hless : ∀ a ∈ rows, ∀ b ∈ rows, less a b = .ok (cmp a b == .lt)) :
    stableSort less rows = .ok (rows.mergeSort fun a b => (cmp a b).isLE) := by
  have hgoal : ∃ out, stableSort less rows = .ok out ∧ StableSorted cmp rows out := by
    induction rows with
    | nil => exact ⟨[], rfl, .refl _, List.Pairwise.nil, fun _ => rfl⟩
    | cons x rest ih =>
      obtain ⟨out, hrun, hout⟩ := ih fun a ha b hb => hless a (List.mem_cons_of_mem _ ha) b (List.mem_cons_of_mem _ hb)
      have hx : ∀ y ∈ out, less y x = .ok (cmp y x == .lt) := fun y hy =>
        hless y (List.mem_cons_of_mem _ (hout.perm.subset hy)) x List.mem_cons_self
      obtain ⟨out', hrun', hout'⟩ := insertStable_ok hx hout
      refine ⟨out', ?_, hout'⟩
      rw [stableSort, hrun]
      exact hrun'
  obtain ⟨out, hrun, hout⟩ := hgoal
  rw [hrun, hout.unique (stableSorted_mergeSort cmp rows)]

end Ddb.Lib
