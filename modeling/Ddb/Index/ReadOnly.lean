import Ddb.Index.BPlusTree
import Ddb.Lib.PagedFailure

/-!
# Which parts of the tree only read

Lookups and scans read nodes and nothing else. Writing a node and repairing a separator allocate nothing. Both are seen on
the code alone, whatever the pages hold.
-/

namespace Ddb.Index

open Ddb.Lib Ddb.Storage

section Vectors

variable {α σ : Type} {xs : List α} {i : Nat} {x : α}

theorem reads_getAt : (getAt xs i : Method PageId Payload Err σ α).Reads := by
  unfold getAt
  split
  · exact Method.reads_pure _
  · exact Method.reads_throw _

theorem reads_setAt : (setAt xs i x : Method PageId Payload Err σ (List α)).Reads := by
  unfold setAt
  split
  · exact Method.reads_pure _
  · exact Method.reads_throw _

theorem reads_insertAt : (insertAt xs i x : Method PageId Payload Err σ (List α)).Reads := by
  unfold insertAt
  split
  · exact Method.reads_pure _
  · exact Method.reads_throw _

end Vectors

namespace BPlusTree

theorem reads_readNode (id : PageId) : (readNode id).Reads := by
  refine Method.reads_get.bind fun tree => (Method.reads_pin _ fun _ => rfl).bind fun page => ?_
  split
  · exact Method.reads_pure _
  · exact Method.reads_throw _

theorem reads_findLeafLoop (key : KeyType) (fuel : Nat) (id : PageId) : (findLeafLoop key fuel id).Reads := by
  induction fuel generalizing id with
  | zero => exact Method.reads_throw _
  | succ fuel ih =>
    refine (reads_readNode id).bind fun node => ?_
    split
    · exact Method.reads_pure _
    · exact reads_getAt.bind fun child => ih child

theorem reads_findLeaf (key : KeyType) : (findLeaf key).Reads :=
  Method.reads_get.bind fun tree => reads_findLeafLoop key _ tree.root

theorem reads_getValue (key : KeyType) : (getValue key).Reads := by
  refine (reads_findLeaf key).bind fun id => (reads_readNode id).bind fun leaf => ?_
  dsimp only
  split
  · exact reads_getAt.bind fun value => Method.reads_pure _
  · exact Method.reads_pure _

theorem reads_scanLoop (low high : KeyType) (fuel : Nat) (id : PageId) : (scanLoop low high fuel id).Reads := by
  induction fuel generalizing id with
  | zero => exact Method.reads_throw _
  | succ fuel ih =>
    rw [scanLoop]
    split
    · exact Method.reads_pure _
    · refine (reads_readNode id).bind fun node => ?_
      dsimp only
      split
      · exact Method.reads_pure _
      · exact (ih node.next).bind fun rest => Method.reads_pure _

theorem reads_scan (low high : KeyType) : (scan low high).Reads := by
  unfold scan
  split
  · exact Method.reads_pure _
  · exact (reads_findLeaf low).bind fun id => reads_scanLoop low high _ id

theorem fixed_writeNode (id : PageId) (node : Node) : (writeNode id node).Fixed := by
  refine Method.reads_get.fixed.bind fun tree => (Method.reads_throw _).fixed.ite ?_
  exact (Method.fixed_update _ _ _ _).bind fun _ => (Method.reads_pure _).fixed

theorem fixed_updateParentSeparator (fuel : Nat) (child : PageId) (first : KeyType) :
    (updateParentSeparator fuel child first).Fixed := by
  induction fuel generalizing child with
  | zero => exact (Method.reads_throw _).fixed
  | succ fuel ih =>
    refine (reads_readNode child).fixed.bind fun node => ?_
    split
    · exact (Method.reads_pure _).fixed
    · refine (reads_readNode _).fixed.bind fun parent => ?_
      dsimp only
      split
      · exact (Method.reads_throw _).fixed
      · split
        · exact reads_setAt.fixed.bind fun keys => fixed_writeNode _ _
        · exact ih _

end BPlusTree

end Ddb.Index
