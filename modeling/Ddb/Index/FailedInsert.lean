import Ddb.Index.ReadOnly
import Ddb.Index.TreeRefinement

/-!
# Insertions that run out of pages

An insertion allocates a page for every node it splits, and one more when the root grows. The leaf is split first, and
before its allocation nothing has been written. When a later one fails the leaf has been cut already, and the right half
is under no parent.
-/

namespace Ddb.Index

open Ddb.Lib Ddb.Storage Ddb.Buffer Ddb.Concurrency

namespace BPlusTree

/-- The leaf's own split is the first allocation of an insertion, and comes before its first write. -/
theorem careful_insertImpl (key : KeyType) (value : RecordId) : (insertImpl key value).Careful := by
  refine (reads_findLeaf key).careful fun id => (reads_readNode id).careful fun leaf => ?_
  dsimp only
  split
  · exact (Method.reads_pure _).fixed.careful
  refine reads_insertAt.careful fun keys => reads_insertAt.careful fun values => Method.reads_get.careful fun tree => ?_
  split
  · refine ((fixed_writeNode _ _).bind fun _ => ?_).careful
    split
    · exact (fixed_updateParentSeparator _ _ _).bind fun _ => (Method.reads_pure _).fixed
    · exact (Method.reads_pure _).fixed
  · exact Method.careful_allocate _

end BPlusTree

/-! ## A catalog without a page left -/

/-- Every page id that the catalog has a bit for has been given out. -/
def Full (db : Database) : Prop := PageManager.kCatalogBits ≤ db.pages.pageCount

instance (db : Database) : Decidable (Full db) := inferInstanceAs (Decidable (_ ≤ _))

/-- What `reserve_page` throws then. -/
def exhausted : Err := .storage "allocation catalog capacity exhausted"

theorem pager_exhausted : (Database.pager none).Exhausted Database.Ready Full exhausted where
  access {db db' id change payload} hready hfull hrun := by
    have haccess : (Database.accessPage none id fun payload => (change payload, payload)).run db = (.ok (some payload), db') := hrun
    have hends := (Database.accessPage_cases hready.inv none id fun payload => (change payload, payload)).1
    rw [haccess] at hends
    have hcount : db'.pages.pageCount = db.pages.pageCount := by
      cases hends with
      | failed houtcome _ _ => exact absurd rfl (houtcome payload)
      | read _ _ hquiet _ => exact hquiet.pageCount
      | wrote _ _ _ _ hwrote _ => exact hwrote.pageCount
      | captured hclient _ _ _ _ _ _ _ _ _ => cases hclient
    exact hfull.trans_eq hcount.symm
  allocate {db} hfull := by
    have hcount : db.pages.pageCount ≥ PageManager.kCatalogBits := hfull
    have hreserve : PageManager.reservePage.run db.pages = (.error exhausted, db.pages) := by
      rw [PageManager.reservePage, Op.get_bind, Op.throwIf_bind_pos hcount]
      rfl
    have hallocate : PageManager.allocatePage.run db.pages = (.error exhausted, db.pages) := by
      rw [PageManager.allocatePage, Op.bind_error hreserve]
    exact Database.onPageManager_of_run hallocate

/-! ## Insertions -/

/-- The calls that only ask. -/
def TreeCall.Asks : TreeCall → Prop
  | .getValue _ | .scan _ _ => True
  | _ => False

theorem TreeCall.Asks.reads {c : TreeCall} (h : c.Asks) : c.method.Reads := by
  cases c with
  | getValue key => exact (BPlusTree.reads_getValue key).bind fun _ => Method.reads_pure _
  | scan low high => exact (BPlusTree.reads_scan low high).bind fun _ => Method.reads_pure _
  | _ => exact h.elim

namespace TreeState

variable {s : TreeState} {key : KeyType} {value : RecordId}

end TreeState

/-- A file whose pages have all been released, with ids left for a few more. -/
def crowded (left : Nat) : PageManager where
  file := PageManager.writeBlock 0 (.catalog (PageManager.kCatalogBits - left) 0 (List.replicate PageManager.kCatalogBytes 0))
    ⟨fun i => .page (PageId.ofIndex (i - 1)) 0 .zero, PageManager.kCatalogBits - left + 1, []⟩
  pageCount := PageManager.kCatalogBits - left
  allocationBitmap := List.replicate PageManager.kCatalogBytes 0
  allocatedPageCount := 0

theorem wellFormed_crowded (left : Nat) : (crowded left).WellFormed where
  capacity := Nat.sub_le _ _
  bitmap_length := List.length_replicate
  clear_above := fun i _ => testBit_replicate_zero _ i
  slots id hid := by
    have hblock : (crowded left).file.block (id.index + 1) = .page id 0 .zero := by
      change Block.page (PageId.ofIndex (id.index + 1 - 1)) 0 .zero = _
      rw [Nat.add_sub_cancel, PageId.ofIndex_index]
    simp [PageManager.slot, hid, hblock]
  count := by
    have hnone : (List.range (PageManager.kCatalogBits - left)).filter (testBit (List.replicate PageManager.kCatalogBytes 0)) = [] :=
      List.filter_eq_nil_iff.mpr fun i _ => by simp [testBit_replicate_zero]
    exact (congrArg List.length hnone).symm

def crowdedDb (left : Nat) : Database := (System.start (crowded left) 8 .empty).db

theorem ready_crowdedDb (left : Nat) : Database.Ready (crowdedDb left) := by
  refine ⟨System.Initial.inv ⟨_, _, _, rfl, wellFormed_crowded left, LogManager.wellFormed_empty⟩, ?_⟩
  intro id f hf
  cases hf

/-- A new tree, if it could be created and opened and nothing failed. -/
def openedTree (config : BPlusTreeConfig) (db : Database) : Option TreeState :=
  match BPlusTree.createFor none config db with
  | (.ok id, db₁) =>
    if ((BPlusTree.creation none config).run ()).Smooth (Database.pager none) db ∧
        ((BPlusTree.openTree id).run ()).Smooth (Database.pager none) db₁ then
      match ((BPlusTree.openTree id).run ()).run (Database.pager none) db₁ with
      | ((.ok tree, _), db₂) => some ⟨db₂, tree⟩
      | _ => none
    else none
  | _ => none

theorem represents_openedTree {config : BPlusTreeConfig} {db : Database} {s : TreeState} (hready : Database.Ready db)
    (hopened : openedTree config db = some s) :
    Database.Ready s.db ∧ ∃ store leaves, Represents (Database.memory s.db) s.tree store [] leaves fun _ => none := by
  unfold openedTree at hopened
  rcases hcreate : BPlusTree.createFor none config db with ⟨outcome, db₁⟩
  rw [hcreate] at hopened
  cases outcome with
  | error e => cases hopened
  | ok id =>
    dsimp only at hopened
    split at hopened
    · rename_i hsmooth
      obtain ⟨tree, db₂, hopen, hready₂, -, store, leaves, hrep⟩ := represents_created hready hsmooth.1 hcreate hsmooth.2
      rw [hopen] at hopened
      obtain rfl := Option.some.inj hopened
      exact ⟨hready₂, store, leaves, hrep⟩
    · cases hopened

def crowdedCalls : List (Option TransactionId × TreeCall) :=
  [(none, .insert 1 ⟨.ofIndex 9, 0⟩), (none, .insert 2 ⟨.ofIndex 9, 1⟩)]

/-- A tree of the least capacities whose leaf is full. -/
def crowdedTree (left : Nat) : Option TreeState :=
  (openedTree ⟨2, 2⟩ (crowdedDb left)).bind fun s => if s.Smooth crowdedCalls then some (s.after crowdedCalls) else none

theorem ready_crowdedTree {left : Nat} {s : TreeState} (h : crowdedTree left = some s) : Database.Ready s.db := by
  obtain ⟨opened, hopened, hafter⟩ := Option.bind_eq_some_iff.mp h
  obtain ⟨hready, store, leaves, hrep⟩ := represents_openedTree (ready_crowdedDb left) hopened
  split at hafter
  · rename_i hsmooth
    obtain rfl := Option.some.inj hafter
    exact (runs_of_smooth _ hready hrep hsmooth).2.1
  · cases hafter

end Ddb.Index
