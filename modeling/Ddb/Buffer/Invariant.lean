import Mathlib.Data.List.Nodup
import Ddb.Buffer.BufferPool

/-!
# The pool's bookkeeping

The page table, the free list and the LRU list agree with the frames. During a miss one frame is on neither list and not
yet filled; the invariant names it, so that the steps of `fetch_page` can be taken one at a time.
-/

namespace Ddb.Buffer

open Ddb.Lib Ddb.Storage

namespace BufferPool

variable {pool : BufferPool} {held : Option FrameId} {f : FrameId} {id : PageId}

theorem frames_setFrame (frame : Frame) (g : FrameId) :
    (pool.setFrame f frame).frames g = if g = f then frame else pool.frames g := Function.update_apply _ _ _ _

/-- The pool with another frame and another LRU list. -/
def reframe (pool : BufferPool) (f : FrameId) (frame : Frame) (lru : List FrameId) : BufferPool where
  capacity := pool.capacity
  frames := Function.update pool.frames f frame
  pageTable := pool.pageTable
  freeFrames := pool.freeFrames
  lru := lru

theorem frames_reframe (frame : Frame) (lru : List FrameId) (g : FrameId) :
    (pool.reframe f frame lru).frames g = if g = f then frame else pool.frames g := Function.update_apply _ _ _ _

/-- `held` is a frame in the hands of `fetch_page`. -/
structure Inv (pool : BufferPool) (held : Option FrameId) : Prop where
  occupied_lt : ∀ f, (pool.frames f).occupied = true → f < pool.capacity
  table_frame : ∀ id f, pool.pageTable id = some f → (pool.frames f).occupied = true ∧ (pool.frames f).page.id = id
  frame_table : ∀ f, (pool.frames f).occupied = true → pool.pageTable (pool.frames f).page.id = some f
  free_iff : ∀ f, f ∈ pool.freeFrames ↔ f < pool.capacity ∧ (pool.frames f).occupied = false ∧ held ≠ some f
  free_nodup : pool.freeFrames.Nodup
  lru_iff : ∀ f, f ∈ pool.lru ↔ (pool.frames f).occupied = true ∧ (pool.frames f).pinCount = 0
  lru_nodup : pool.lru.Nodup
  blank : ∀ f, (pool.frames f).occupied = false → pool.frames f = .blank
  held_free : ∀ f, held = some f → f < pool.capacity ∧ (pool.frames f).occupied = false

theorem inv_create (capacity : Nat) : (create capacity).Inv none where
  occupied_lt := by simp [create, Frame.blank]
  table_frame := by simp [create]
  frame_table := by simp [create, Frame.blank]
  free_iff := by simp [create, Frame.blank]
  free_nodup := List.nodup_range
  lru_iff := by simp [create, Frame.blank]
  lru_nodup := List.nodup_nil
  blank := by simp [create]
  held_free := by simp

theorem Inv.page_ne (h : pool.Inv held) {other : FrameId} (hf : (pool.frames f).occupied = true)
    (hother : (pool.frames other).occupied = true) (hne : other ≠ f) :
    (pool.frames other).page.id ≠ (pool.frames f).page.id := by
  intro heq
  have htable := h.frame_table other hother
  rw [heq, h.frame_table f hf] at htable
  exact hne (Option.some.inj htable).symm

/-- A change to an occupied frame that keeps its page id, with the LRU list that goes with its new pin count. -/
theorem Inv.retouch (h : pool.Inv held) (hf : (pool.frames f).occupied = true) {frame : Frame}
    (hoccupied : frame.occupied = true) (hid : frame.page.id = (pool.frames f).page.id) {lru : List FrameId}
    (hnodup : lru.Nodup) (hself : f ∈ lru ↔ frame.pinCount = 0) (hother : ∀ g, g ≠ f → (g ∈ lru ↔ g ∈ pool.lru)) :
    (pool.reframe f frame lru).Inv held := by
  have hframe := @frames_reframe pool f frame lru
  refine ⟨?_, ?_, ?_, ?_, h.free_nodup, ?_, hnodup, ?_, ?_⟩
  · intro g hg
    change g < pool.capacity
    by_cases hgf : g = f
    · exact hgf ▸ h.occupied_lt f hf
    · exact h.occupied_lt g (by simpa only [hframe, if_neg hgf] using hg)
  · intro id g hg
    obtain ⟨hgoccupied, hgid⟩ := h.table_frame id g hg
    by_cases hgf : g = f
    · subst hgf
      simp only [hframe, if_true]
      exact ⟨hoccupied, hid.trans hgid⟩
    · simp only [hframe, if_neg hgf]
      exact ⟨hgoccupied, hgid⟩
  · intro g hg
    by_cases hgf : g = f
    · subst hgf
      simp only [hframe, if_true, hid]
      exact h.frame_table g hf
    · simp only [hframe, if_neg hgf] at hg ⊢
      exact h.frame_table g hg
  · intro g
    change g ∈ pool.freeFrames ↔ _
    rw [h.free_iff]
    by_cases hgf : g = f
    · subst hgf
      simp [hframe, hf, hoccupied]
    · simp only [hframe, if_neg hgf]
      rfl
  · intro g
    by_cases hgf : g = f
    · subst hgf
      simp only [hframe, if_true, hoccupied, true_and]
      exact hself
    · simp only [hframe, if_neg hgf]
      rw [← h.lru_iff]
      exact hother g hgf
  · intro g hg
    by_cases hgf : g = f
    · subst hgf
      simp [hframe, hoccupied] at hg
    · simp only [hframe, if_neg hgf] at hg ⊢
      exact h.blank g hg
  · intro g hg
    obtain ⟨hlt, hfree⟩ := h.held_free g hg
    have hgf : g ≠ f := by
      intro heq
      rw [heq, hf] at hfree
      simp at hfree
    simp only [hframe, if_neg hgf]
    exact ⟨hlt, hfree⟩

/-- A change that leaves the pin count alone leaves the LRU list alone. -/
theorem Inv.setFrame (h : pool.Inv held) (hf : (pool.frames f).occupied = true) {frame : Frame}
    (hoccupied : frame.occupied = true) (hid : frame.page.id = (pool.frames f).page.id)
    (hpin : frame.pinCount = (pool.frames f).pinCount) : (pool.setFrame f frame).Inv held := by
  refine h.retouch hf hoccupied hid h.lru_nodup ?_ fun _ _ => Iff.rfl
  rw [h.lru_iff, hf, hpin]
  simp

theorem Inv.takeFree (h : pool.Inv none) {rest : List FrameId} (hfree : pool.freeFrames = f :: rest) :
    ({ pool with freeFrames := rest } : BufferPool).Inv (some f) := by
  have hnodup := h.free_nodup
  rw [hfree, List.nodup_cons] at hnodup
  have hmem := (h.free_iff f).mp (by rw [hfree]; exact List.mem_cons_self)
  refine ⟨h.occupied_lt, h.table_frame, h.frame_table, ?_, hnodup.2, h.lru_iff, h.lru_nodup, h.blank, ?_⟩
  · intro g
    have hg := h.free_iff g
    rw [hfree, List.mem_cons] at hg
    by_cases hgf : g = f
    · subst hgf
      simp [hnodup.1]
    · simp only [hgf, false_or] at hg
      rw [hg]
      simp [Ne.symm hgf]
  · intro g hg
    obtain rfl := Option.some.inj hg
    exact ⟨hmem.1, hmem.2.1⟩

/-- Drop an occupied frame from the table and the LRU list. -/
theorem Inv.evict (h : pool.Inv none) (hf : (pool.frames f).occupied = true) (hid : (pool.frames f).page.id = id) :
    (((pool.removeFromLru f).erasePage id).resetFrame f).Inv (some f) := by
  have hframe : ∀ g, (((pool.removeFromLru f).erasePage id).resetFrame f).frames g =
      if g = f then .blank else pool.frames g := fun g => frames_setFrame _ g
  have htable : ∀ other, (((pool.removeFromLru f).erasePage id).resetFrame f).pageTable other =
      if other = id then none else pool.pageTable other := fun _ => Function.update_apply _ _ _ _
  refine ⟨?_, ?_, ?_, ?_, h.free_nodup, ?_, h.lru_nodup.erase f, ?_, ?_⟩
  · intro g hg
    rw [hframe] at hg
    split at hg
    · simp [Frame.blank] at hg
    · exact h.occupied_lt g hg
  · intro other g hg
    rw [htable] at hg
    split at hg
    · simp at hg
    · rename_i hne
      obtain ⟨hgoccupied, hgid⟩ := h.table_frame other g hg
      have hgf : g ≠ f := by
        intro heq
        rw [heq, hid] at hgid
        exact hne hgid.symm
      rw [hframe, if_neg hgf]
      exact ⟨hgoccupied, hgid⟩
  · intro g hg
    by_cases hgf : g = f
    · simp [hframe, hgf, Frame.blank] at hg
    · simp only [hframe, if_neg hgf] at hg ⊢
      rw [htable, if_neg (hid ▸ h.page_ne hf hg hgf)]
      exact h.frame_table g hg
  · intro g
    change g ∈ pool.freeFrames ↔ g < pool.capacity ∧ _
    rw [h.free_iff, hframe]
    by_cases hgf : g = f
    · subst hgf
      simp [hf]
    · simp [hgf, Ne.symm hgf]
  · intro g
    change g ∈ pool.lru.erase f ↔ _
    rw [h.lru_nodup.mem_erase_iff, h.lru_iff, hframe]
    by_cases hgf : g = f
    · simp [hgf, Frame.blank]
    · simp [hgf]
  · intro g hg
    rw [hframe] at hg ⊢
    split
    · rfl
    · rename_i hgf
      rw [if_neg hgf] at hg
      exact h.blank g hg
  · intro g hg
    obtain rfl := Option.some.inj hg
    refine ⟨h.occupied_lt f hf, ?_⟩
    rw [hframe, if_pos rfl]
    rfl

/-- Fill the frame in hand with a page that was not resident. -/
theorem Inv.fill (h : pool.Inv (some f)) (habsent : pool.pageTable id = none) {frame : Frame}
    (hoccupied : frame.occupied = true) (hid : frame.page.id = id) (hpin : frame.pinCount ≠ 0) :
    ({ pool.setFrame f frame with pageTable := Function.update pool.pageTable id (some f) } : BufferPool).Inv none := by
  obtain ⟨hlt, hfree⟩ := h.held_free f rfl
  have hframe := @frames_setFrame pool f frame
  refine ⟨?_, ?_, ?_, ?_, h.free_nodup, ?_, h.lru_nodup, ?_, by simp⟩
  · intro g hg
    by_cases hgf : g = f
    · exact hgf ▸ hlt
    · exact h.occupied_lt g (by simpa only [hframe, if_neg hgf] using hg)
  · intro other g hg
    simp only [Function.update_apply] at hg
    split at hg
    · rename_i heq
      obtain rfl := Option.some.inj hg
      simp only [hframe, if_true]
      exact ⟨hoccupied, hid.trans heq.symm⟩
    · obtain ⟨hgoccupied, hgid⟩ := h.table_frame other g hg
      have hgf : g ≠ f := by
        intro heq
        rw [heq, hfree] at hgoccupied
        simp at hgoccupied
      simp only [hframe, if_neg hgf]
      exact ⟨hgoccupied, hgid⟩
  · intro g hg
    by_cases hgf : g = f
    · subst hgf
      simp [hframe, hid]
    · simp only [hframe, if_neg hgf] at hg ⊢
      have htable := h.frame_table g hg
      have hne : (pool.frames g).page.id ≠ id := by
        intro heq
        rw [heq, habsent] at htable
        simp at htable
      rw [Function.update_of_ne hne]
      exact htable
  · intro g
    change g ∈ pool.freeFrames ↔ _
    rw [h.free_iff]
    by_cases hgf : g = f
    · subst hgf
      simp [hframe, hoccupied]
    · simp only [hframe, if_neg hgf]
      simp [Ne.symm hgf]
      exact fun _ => Iff.rfl
  · intro g
    change g ∈ pool.lru ↔ _
    rw [h.lru_iff]
    by_cases hgf : g = f
    · subst hgf
      simp [hframe, hfree, hpin]
    · simp only [hframe, if_neg hgf]
  · intro g hg
    by_cases hgf : g = f
    · subst hgf
      simp [hframe, hoccupied] at hg
    · simp only [hframe, if_neg hgf] at hg ⊢
      exact h.blank g hg

/-- Put the frame in hand on the free list. -/
theorem Inv.giveBack (h : pool.Inv (some f)) : ((pool.resetFrame f).pushFree f).Inv none := by
  obtain ⟨hlt, hfree⟩ := h.held_free f rfl
  have hsame : (pool.resetFrame f).frames = pool.frames := by
    rw [resetFrame, BufferPool.setFrame, ← h.blank f hfree]
    exact Function.update_eq_self _ _
  refine ⟨?_, ?_, ?_, ?_, ?_, ?_, h.lru_nodup, ?_, by simp⟩
  · intro g hg
    exact h.occupied_lt g (by rwa [pushFree, hsame] at hg)
  · intro id g hg
    rw [pushFree, hsame]
    exact h.table_frame id g hg
  · intro g hg
    rw [pushFree, hsame] at hg ⊢
    exact h.frame_table g hg
  · intro g
    rw [pushFree, hsame, List.mem_cons]
    change g = f ∨ g ∈ pool.freeFrames ↔ g < pool.capacity ∧ _
    rw [h.free_iff]
    by_cases hgf : g = f
    · subst hgf
      simp [hlt, hfree]
    · simp [hgf, Ne.symm hgf]
  · change (f :: pool.freeFrames).Nodup
    rw [List.nodup_cons, h.free_iff]
    exact ⟨by simp, h.free_nodup⟩
  · intro g
    rw [pushFree, hsame]
    exact h.lru_iff g
  · intro g hg
    rw [pushFree, hsame] at hg ⊢
    exact h.blank g hg

end BufferPool

end Ddb.Buffer
