import Mathlib.Data.List.Chain
import Mathlib.Logic.Function.Basic

/-!
# Before and after images

A list of changes of single values, each with the image before it and the image after it. If every change was made on what
was there, the images lead both ways: the before images in reverse order back to the start, the after images in order to
the end.

The second part is about one value and the entries of a log that carry it before and after: what the last change of it left.
-/

namespace Ddb.Lib

structure Change (ι π : Type*) where
  key : ι
  before : π
  after : π

namespace Change

variable {ι π : Type*} [DecidableEq ι] {m m' : ι → π} {changes : List (Change ι π)}

/-- The changes lead from one map to another. -/
def Lead : (ι → π) → List (Change ι π) → (ι → π) → Prop
  | m, [], m' => m' = m
  | m, c :: rest, m' => m c.key = c.before ∧ Lead (Function.update m c.key c.after) rest m'

def undo (m : ι → π) (c : Change ι π) : ι → π := Function.update m c.key c.before

def redo (m : ι → π) (c : Change ι π) : ι → π := Function.update m c.key c.after

theorem Lead.snoc (h : Lead m changes m') {c : Change ι π} (hbefore : m' c.key = c.before) :
    Lead m (changes ++ [c]) (redo m' c) := by
  induction changes generalizing m with
  | nil =>
    obtain rfl : m' = m := h
    exact ⟨hbefore, rfl⟩
  | cons d rest ih => exact ⟨h.1, ih h.2⟩

theorem Lead.foldl_undo (h : Lead m changes m') : changes.reverse.foldl undo m' = m := by
  induction changes generalizing m with
  | nil => exact h
  | cons c rest ih =>
    rw [List.reverse_cons, List.foldl_append, ih h.2, List.foldl_cons, List.foldl_nil, undo, Function.update_idem, ← h.1,
      Function.update_eq_self]

theorem Lead.foldl_redo (h : Lead m changes m') : changes.foldl redo m = m' := by
  induction changes generalizing m with
  | nil => exact h.symm
  | cons c rest ih => exact ih h.2

end Change

/-! ## The last change of one value -/

section Cell

variable {ε V : Type*} [DecidableEq V] (before after : ε → V) {entries : List ε}

/-- The entries that change the value. -/
def changing (entries : List ε) : List ε := entries.filter fun e => before e ≠ after e

/-- An entry's change, made on any value. -/
def patched (value : V) (e : ε) : V := if before e ≠ after e then after e else value

/-- Each entry starts from what the one before it left. -/
def Continued (entries : List ε) : Prop := entries.IsChain fun earlier later => before later = after earlier

theorem changing_append (first second : List ε) :
    changing before after (first ++ second) = changing before after first ++ changing before after second :=
  List.filter_append ..

/-- Changes made one after the other leave what the last of them leaves. -/
theorem foldl_patched (entries : List ε) (value : V) :
    entries.foldl (patched before after) value = ((changing before after entries).getLast?.map after).getD value := by
  induction entries using List.reverseRecOn with
  | nil => rfl
  | append_singleton rest e ih =>
    rw [List.foldl_append, ih, changing_append, List.getLast?_append]
    by_cases hchange : before e ≠ after e
    · simp [patched, changing, hchange]
    · simp [patched, changing, hchange]

/-- Where each entry starts from what the one before it left, the last entry carries what the last change left. -/
theorem Continued.last {first : ε} {rest : List ε} (h : Continued before after (first :: rest)) :
    after ((first :: rest).getLast (List.cons_ne_nil _ _)) =
      ((changing before after (first :: rest)).getLast?.map after).getD (before first) := by
  induction rest using List.reverseRecOn with
  | nil =>
    by_cases hchange : before first = after first
    · simp [changing, hchange]
    · simp [changing, hchange]
  | append_singleton rest e ih =>
    rw [← List.cons_append] at h
    obtain ⟨hfirst, -, hseam⟩ := List.isChain_append.mp h
    have hbefore : before e = after ((first :: rest).getLast (List.cons_ne_nil _ _)) :=
      hseam _ (List.getLast_mem_getLast? _) e rfl
    simp only [← List.cons_append]
    rw [List.getLast_concat, changing_append, List.getLast?_append]
    by_cases hchange : before e = after e
    · have hidle : changing before after [e] = [] := by simp [changing, hchange]
      rw [hidle, List.getLast?_nil, Option.none_or, ← hchange, hbefore]
      exact ih hfirst
    · simp [changing, hchange]

theorem changing_filter (entries : List ε) (p : ε → Bool) :
    changing before after (entries.filter p) = (changing before after entries).filter p := by
  rw [changing, changing, List.filter_filter, List.filter_filter]
  exact List.filter_congr fun e _ => Bool.and_comm ..

/-- Among the entries that satisfy a condition the last change is the last of all, if that one does. -/
theorem getLast?_changing_filter {p : ε → Bool} {e : ε} (hlast : (changing before after entries).getLast? = some e)
    (he : p e = true) : (changing before after (entries.filter p)).getLast? = some e := by
  obtain ⟨rest, hrest⟩ := List.getLast?_eq_some_iff.mp hlast
  rw [changing_filter, hrest, List.filter_append, List.filter_cons, if_pos he, List.filter_nil, List.getLast?_concat]

end Cell

end Ddb.Lib
