import Mathlib.Data.List.Chain

/-!
# Sorting into buckets by repeated search

Elements come one by one. Each goes to the end of the first bucket whose first element it is related to, and starts a new
bucket at the end when there is none. The relation decides "the same key". Nothing is asked of it for the buckets to be a
partition whose first elements are the keys in order of first appearance. If it is symmetric and transitive, a bucket has all
elements of its key; it need not be reflexive, and an element that is not related to itself is alone in its bucket.
-/

namespace Ddb.Lib

variable {α : Type*} {r : α → α → Bool} {x z : α} {xs b : List α} {bs : List (List α)}

/-- The first bucket whose first element is related to `x` gets it. -/
def putBy (r : α → α → Bool) (x : α) : List (List α) → List (List α)
  | [] => [[x]]
  | b :: bs => if b.head?.any (r · x) then (b ++ [x]) :: bs else b :: putBy r x bs

def bucketsBy (r : α → α → Bool) (xs : List α) : List (List α) := xs.foldl (fun bs x => putBy r x bs) []

/-- The first elements of the buckets. -/
def firsts (bs : List (List α)) : List α := bs.filterMap List.head?

theorem mem_firsts : z ∈ firsts bs ↔ ∃ b ∈ bs, b.head? = some z := List.mem_filterMap

theorem firsts_append (bs bs' : List (List α)) : firsts (bs ++ bs') = firsts bs ++ firsts bs' := List.filterMap_append ..

/-- Where an element goes. -/
theorem putBy_cases (r : α → α → Bool) (x : α) (bs : List (List α)) :
    (∃ before b after z, bs = before ++ b :: after ∧ b.head? = some z ∧ r z x = true ∧
      putBy r x bs = before ++ (b ++ [x]) :: after) ∨
    ((∀ z ∈ firsts bs, r z x = false) ∧ putBy r x bs = bs ++ [[x]]) := by
  induction bs with
  | nil => exact Or.inr ⟨nofun, rfl⟩
  | cons b bs ih =>
    by_cases hfound : b.head?.any (r · x) = true
    · obtain ⟨z, hz, hrel⟩ := (Option.any_eq_true ..).mp hfound
      exact Or.inl ⟨[], b, bs, z, rfl, hz, hrel, if_pos hfound⟩
    · have hput : putBy r x (b :: bs) = b :: putBy r x bs := if_neg hfound
      rw [hput]
      rcases ih with ⟨before, b', after, z, rfl, hz, hrel, heq⟩ | ⟨hnone, heq⟩
      · exact Or.inl ⟨b :: before, b', after, z, rfl, hz, hrel, congrArg (b :: ·) heq⟩
      · refine Or.inr ⟨fun z hz => ?_, congrArg (b :: ·) heq⟩
        obtain ⟨b', hb', hhead⟩ := mem_firsts.mp hz
        rcases List.mem_cons.mp hb' with rfl | hb'
        · rw [hhead] at hfound
          exact Bool.eq_false_iff.mpr hfound
        · exact hnone z (mem_firsts.mpr ⟨b', hb', hhead⟩)

/-- A new element at the end adds to the keys unless one of them is its key. -/
theorem eraseDupsBy_concat (s : α → α → Bool) (xs : List α) (x : α) :
    (xs ++ [x]).eraseDupsBy s = if (xs.eraseDupsBy s).any (s x) then xs.eraseDupsBy s else xs.eraseDupsBy s ++ [x] := by
  have hloop : ∀ acc, List.eraseDupsBy.loop s (xs ++ [x]) acc = if (List.eraseDupsBy.loop s xs acc).any (s x) then
      List.eraseDupsBy.loop s xs acc else List.eraseDupsBy.loop s xs acc ++ [x] := by
    induction xs with
    | nil =>
      intro acc
      simp only [List.nil_append, List.eraseDupsBy.loop, List.any_reverse]
      cases acc.any (s x) <;> simp
    | cons y xs ih =>
      intro acc
      simp only [List.cons_append, List.eraseDupsBy.loop]
      by_cases hseen : acc.any (s y) = true
      · simp only [hseen]
        exact ih acc
      · simp only [Bool.not_eq_true] at hseen
        simp only [hseen]
        exact ih (y :: acc)
  exact hloop []

/-- What the buckets of a list are. -/
structure Bucketed (r : α → α → Bool) (xs : List α) (bs : List (List α)) : Prop where
  perm : bs.flatten.Perm xs
  same : ∀ b ∈ bs, ∃ z rest, b = z :: rest ∧ ∀ y ∈ rest, r z y = true
  firsts : firsts bs = xs.eraseDupsBy fun y z => r z y
  distinct : (Lib.firsts bs).Pairwise fun z z' => r z z' = false

theorem Bucketed.nil : Bucketed r [] [] := ⟨.refl _, nofun, rfl, .nil⟩

theorem Bucketed.put (h : Bucketed r xs bs) (x : α) : Bucketed r (xs ++ [x]) (putBy r x bs) := by
  rcases putBy_cases r x bs with ⟨before, b, after, z, rfl, hz, hrel, heq⟩ | ⟨hnone, heq⟩
  · rw [heq]
    obtain ⟨z', rest, rfl, hrest⟩ := h.same b (by simp)
    obtain rfl : z' = z := Option.some.inj hz
    have hfirsts : Lib.firsts (before ++ (z' :: rest ++ [x]) :: after) = Lib.firsts (before ++ (z' :: rest) :: after) := by
      simp only [firsts_append]
      rfl
    have hmem : z' ∈ xs.eraseDupsBy fun y z => r z y := h.firsts ▸ mem_firsts.mpr ⟨z' :: rest, by simp, rfl⟩
    refine ⟨?_, ?_, ?_, ?_⟩
    · have hperm := h.perm.append_right [x]
      simp only [List.flatten_append, List.flatten_cons, List.append_assoc] at hperm ⊢
      refine List.Perm.trans ?_ hperm
      exact ((List.perm_append_comm).append_left (z' :: rest)).append_left before.flatten
    · intro b' hb'
      simp only [List.mem_append, List.mem_cons] at hb'
      rcases hb' with hb' | rfl | hb'
      · exact h.same b' (by simp [hb'])
      · refine ⟨z', rest ++ [x], rfl, fun y hy => ?_⟩
        rcases List.mem_append.mp hy with hy | hy
        · exact hrest y hy
        · exact List.mem_singleton.mp hy ▸ hrel
      · exact h.same b' (by simp [hb'])
    · rw [hfirsts, h.firsts, eraseDupsBy_concat, if_pos]
      exact List.any_eq_true.mpr ⟨z', hmem, hrel⟩
    · rw [hfirsts]
      exact h.distinct
  · rw [heq]
    have hfirsts : Lib.firsts (bs ++ [[x]]) = Lib.firsts bs ++ [x] := firsts_append bs [[x]]
    refine ⟨?_, ?_, ?_, ?_⟩
    · rw [List.flatten_append]
      exact h.perm.append_right [x]
    · intro b hb
      rcases List.mem_append.mp hb with hb | hb
      · exact h.same b hb
      · exact ⟨x, [], List.mem_singleton.mp hb, nofun⟩
    · rw [hfirsts, eraseDupsBy_concat, ← h.firsts, if_neg]
      intro hany
      obtain ⟨z, hz, hrel⟩ := List.any_eq_true.mp hany
      rw [hnone z hz] at hrel
      cases hrel
    · rw [hfirsts, List.pairwise_append]
      refine ⟨h.distinct, List.pairwise_singleton _ _, fun z hz y hy => ?_⟩
      exact List.mem_singleton.mp hy ▸ hnone z hz

theorem bucketed_bucketsBy (r : α → α → Bool) (xs : List α) : Bucketed r xs (bucketsBy r xs) := by
  induction xs using List.reverseRecOn with
  | nil => exact .nil
  | append_singleton xs x ih =>
    rw [bucketsBy, List.foldl_append]
    exact ih.put x

section Keys

variable (hsymm : ∀ x y, r x y = true → r y x = true) (htrans : ∀ x y z, r x y = true → r y z = true → r x z = true)
include hsymm htrans

/-- The elements of one key are in one bucket. -/
theorem Bucketed.key_unique (h : Bucketed r xs bs) {b b' : List α} {z z' : α} (hb : b.head? = some z) (hb' : b'.head? = some z')
    {before after : List (List α)} (hsplit : bs = before ++ b :: after) (hother : b' ∈ before ++ after) {y : α}
    (hy : r z y = true) : r z' y = false := by
  by_contra hy'
  have hback : r z' z = true := htrans _ _ _ (Bool.not_eq_false _ ▸ hy') (hsymm _ _ hy)
  have hdistinct := h.distinct
  rw [hsplit, firsts_append, List.pairwise_append] at hdistinct
  have hcons : Lib.firsts (b :: after) = z :: Lib.firsts after := List.filterMap_cons_some hb
  rw [hcons] at hdistinct
  rcases List.mem_append.mp hother with hmem | hmem
  · rw [hdistinct.2.2 z' (mem_firsts.mpr ⟨b', hmem, hb'⟩) z (List.mem_cons_self ..)] at hback
    cases hback
  · have hfalse := (List.pairwise_cons.mp hdistinct.2.1).1 z' (mem_firsts.mpr ⟨b', hmem, hb'⟩)
    rw [hsymm _ _ hback] at hfalse
    cases hfalse

/-- A bucket has all elements of its key, in their order. -/
theorem bucketsBy_whole (xs : List α) : ∀ b ∈ bucketsBy r xs, ∀ z, b.head? = some z → r z z = true → b = xs.filter (r z) := by
  induction xs using List.reverseRecOn with
  | nil => nofun
  | append_singleton xs x ih =>
    have hbuckets := bucketed_bucketsBy r xs
    have hput : bucketsBy r (xs ++ [x]) = putBy r x (bucketsBy r xs) := by rw [bucketsBy, List.foldl_append]; rfl
    intro b hb z hz hself
    rw [hput] at hb
    rw [List.filter_append]
    rcases putBy_cases r x (bucketsBy r xs) with ⟨before, b₀, after, z₀, hsplit, hz₀, hrel, heq⟩ | ⟨hnone, heq⟩
    · rw [heq, List.mem_append, List.mem_cons] at hb
      have hother : b ∈ before ++ after → b = xs.filter (r z) ++ [x].filter (r z) := by
        intro hmem
        have hmem' : b ∈ bucketsBy r xs := by
          rw [hsplit]
          rcases List.mem_append.mp hmem with h | h
          · exact List.mem_append_left _ h
          · exact List.mem_append_right _ (List.mem_cons_of_mem _ h)
        rw [List.filter_singleton, hbuckets.key_unique hsymm htrans hz₀ hz hsplit hmem hrel, ← ih b hmem' z hz hself]
        exact (List.append_nil b).symm
      rcases hb with hb | rfl | hb
      · exact hother (List.mem_append_left _ hb)
      · obtain ⟨z', rest, rfl, -⟩ := hbuckets.same b₀ (hsplit ▸ List.mem_append_right _ (List.mem_cons_self ..))
        obtain rfl : z' = z₀ := Option.some.inj hz₀
        obtain rfl : z' = z := Option.some.inj hz
        have hmem : z' :: rest ∈ bucketsBy r xs := hsplit ▸ List.mem_append_right _ (List.mem_cons_self ..)
        rw [List.filter_singleton, hrel, ← ih _ hmem z' rfl hself]
        rfl
      · exact hother (List.mem_append_right _ hb)
    · rw [heq] at hb
      rcases List.mem_append.mp hb with hb | hb
      · rw [List.filter_singleton, hnone z (mem_firsts.mpr ⟨b, hb, hz⟩), ← ih b hb z hz hself]
        exact (List.append_nil b).symm
      · obtain rfl := List.mem_singleton.mp hb
        obtain rfl : x = z := Option.some.inj hz
        -- An earlier element of this key would have a bucket, and that would have been found.
        have hempty : xs.filter (r x) = [] := by
          refine List.filter_eq_nil_iff.mpr fun y hy hxy => ?_
          obtain ⟨b', hb', hmem⟩ := List.mem_flatten.mp (hbuckets.perm.mem_iff.mpr hy)
          obtain ⟨z', rest, rfl, hrest⟩ := hbuckets.same b' hb'
          have hz' : r z' x = true := by
            rcases List.mem_cons.mp hmem with rfl | hmem
            · exact hsymm _ _ hxy
            · exact htrans _ _ _ (hrest y hmem) (hsymm _ _ hxy)
          rw [hnone z' (mem_firsts.mpr ⟨_, hb', rfl⟩)] at hz'
          cases hz'
        rw [hempty, List.filter_singleton, hself]
        rfl

end Keys

end Ddb.Lib
