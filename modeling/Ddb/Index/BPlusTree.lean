import Ddb.Index.Node
import Ddb.Lib.Paged

/-!
# The B+ tree

The object keeps the metadata page id, the root and the capacities; everything else is in the nodes, which are read and
written as whole pages. Insertion and removal find a leaf from the root down and repair the tree from the leaf up, along the
parent pointers. The loops and recursions that follow pointers have a turn for every page id.

`std::lower_bound` and `std::upper_bound` are the first position that is not below the key, and the first above it. An index
outside a vector has no exception of its own in the source; here it is `outOfBounds`.
-/

namespace Ddb.Index

open Ddb.Lib Ddb.Storage

structure BPlusTree where
  metadata : PageId
  root : PageId
  config : BPlusTreeConfig

abbrev TreeOp := Method PageId Payload Err BPlusTree

/-! ## Vectors -/

section Vectors

variable {α σ : Type}

def getAt (xs : List α) (i : Nat) : Method PageId Payload Err σ α :=
  match xs[i]? with
  | some x => return x
  | none => throw .outOfBounds

def setAt (xs : List α) (i : Nat) (x : α) : Method PageId Payload Err σ (List α) :=
  if i < xs.length then return xs.set i x else throw .outOfBounds

def insertAt (xs : List α) (i : Nat) (x : α) : Method PageId Payload Err σ (List α) :=
  if i ≤ xs.length then return xs.insertIdx i x else throw .outOfBounds

def eraseAt (xs : List α) (i : Nat) : Method PageId Payload Err σ (List α) :=
  if i < xs.length then return xs.eraseIdx i else throw .outOfBounds

/-- `front`. -/
def front (xs : List α) : Method PageId Payload Err σ α := getAt xs 0

/-- `back`. -/
def back (xs : List α) : Method PageId Payload Err σ α := getAt xs (xs.length - 1)

end Vectors

def lowerBound (keys : List KeyType) (key : KeyType) : Nat := keys.findIdx fun k => decide (key ≤ k)

def upperBound (keys : List KeyType) (key : KeyType) : Nat := keys.findIdx fun k => decide (key < k)

namespace BPlusTree

/-! ## Pages -/

def metadataPage (root : PageId) (config : BPlusTreeConfig) : Option Payload :=
  puts .zero [(0, kMetadataMagic), (8, leBytes 8 root.index), (16, leBytes 2 config.leafMaxKeys),
    (18, leBytes 2 config.internalMaxKeys)]

/-- The constructor. -/
def openTree {σ : Type} (metadata : PageId) : Method PageId Payload Err σ BPlusTree := do
  let page ← Method.pin metadata (fun _ => none) (.runtime "cannot fetch B+ tree metadata page")
  let root := getPageId page 8
  let config : BPlusTreeConfig := ⟨get16 page 16, get16 page 18⟩
  if window page.bytes 0 8 ≠ kMetadataMagic ∨ root.isValid = false ∨ config.leafMaxKeys < 2 ∨ config.internalMaxKeys < 2 then
    throw (.runtime "invalid B+ tree metadata page")
  else return ⟨metadata, root, config⟩

def writeMetadata : TreeOp Unit := do
  let tree ← get
  let _ ← Method.update tree.metadata (fun _ => metadataPage tree.root tree.config)
    (.runtime "cannot fetch B+ tree metadata") .outOfBounds

def readNode (id : PageId) : TreeOp Node := do
  let tree ← get
  let page ← Method.pin id (fun _ => none) (.runtime "cannot fetch B+ tree node")
  match decode tree.config page with
  | .ok node => return node
  | .error e => throw e

def writeNode (id : PageId) (node : Node) : TreeOp Unit := do
  let tree ← get
  if node.keys.length > tree.config.maxKeys node.leaf ∨
      (if node.leaf then node.values.length ≠ node.keys.length else node.children.length ≠ node.keys.length + 1) then
    throw (.logic "invalid B+ tree node write")
  else
    let _ ← Method.update id (fun _ => encode node) (.runtime "cannot fetch B+ tree node for write") .outOfBounds

def allocateNode (node : Node) : TreeOp PageId := do
  let id ← Method.allocate
  writeNode id node
  return id

/-! ## Creation -/

/-- What the two `create` functions have in common; they differ in what they do on the new object after its root. -/
def createWith {σ : Type} (finish : TreeOp Unit) (config : BPlusTreeConfig) : Method PageId Payload Err σ PageId := do
  if config.leafMaxKeys < 2 ∨ config.internalMaxKeys < 2 ∨
      kHeaderSize + config.leafMaxKeys * kLeafEntrySize > kPagePayloadSize ∨
      kHeaderSize + 8 + config.internalMaxKeys * kInternalEntrySize > kPagePayloadSize then
    throw (.invalidArgument "invalid B+ tree node capacity")
  else
    let metadata ← Method.allocate
    let root ← Method.allocate
    let _ ← Method.update metadata (fun _ => metadataPage root config)
      (.runtime "cannot fetch new B+ tree metadata") .outOfBounds
    let tree ← openTree metadata
    Method.on tree do
      writeNode root ⟨true, .invalid, .invalid, [], [], []⟩
      finish
    return metadata

/-- `create` without a transaction, up to the flush of the pool at its end. -/
def create {σ : Type} : BPlusTreeConfig → Method PageId Payload Err σ PageId := createWith writeMetadata

/-- `create` in a transaction. -/
def createLogged {σ : Type} : BPlusTreeConfig → Method PageId Payload Err σ PageId := createWith (pure ())

/-- A new object on the same metadata page takes the place of this one. -/
def reopen : TreeOp Unit := do
  let tree ← get
  set (← openTree tree.metadata)

/-! ## Lookup -/

def findLeafLoop (key : KeyType) : Nat → PageId → TreeOp PageId
  | 0, _ => throw .outOfFuel
  | fuel + 1, id => do
    let node ← readNode id
    if node.leaf then return id
    else
      let child ← getAt node.children (upperBound node.keys key)
      findLeafLoop key fuel child

def findLeaf (key : KeyType) : TreeOp PageId := do
  let tree ← get
  findLeafLoop key (2 ^ 64) tree.root

def getValue (key : KeyType) : TreeOp (Option RecordId) := do
  let leaf ← readNode (← findLeaf key)
  let at' := lowerBound leaf.keys key
  if leaf.keys[at']? = some key then
    let value ← getAt leaf.values at'
    return some value
  else return none

/-- What a leaf adds to a scan, and whether the scan ends there. -/
def scanEntries (low high : KeyType) : List (KeyType × RecordId) → List (KeyType × RecordId) × Bool
  | [] => ([], false)
  | (key, value) :: rest =>
    if key < low then scanEntries low high rest
    else if high < key then ([], true)
    else ((key, value) :: (scanEntries low high rest).1, (scanEntries low high rest).2)

def scanLoop (low high : KeyType) : Nat → PageId → TreeOp (List (KeyType × RecordId))
  | 0, _ => throw .outOfFuel
  | fuel + 1, id => do
    if id.isValid = false then return []
    else
      let node ← readNode id
      let entries := scanEntries low high (node.keys.zip node.values)
      if entries.2 then return entries.1
      else
        let rest ← scanLoop low high fuel node.next
        return entries.1 ++ rest

def scan (low high : KeyType) : TreeOp (List (KeyType × RecordId)) := do
  if high < low then return []
  else
    let id ← findLeaf low
    scanLoop low high (2 ^ 64) id

/-! ## Insertion -/

def setParent (child parent : PageId) : TreeOp Unit := do
  let node ← readNode child
  writeNode child { node with parent := parent }

def setParents (children : List PageId) (parent : PageId) : TreeOp Unit := children.forM fun child => setParent child parent

def setRoot (root : PageId) : TreeOp Unit := do
  modify fun tree => { tree with root := root }
  writeMetadata

def insertIntoParent : Nat → PageId → KeyType → PageId → TreeOp Unit
  | 0, _, _, _ => throw .outOfFuel
  | fuel + 1, left, separator, right => do
    let leftNode ← readNode left
    if leftNode.parent.isValid = false then
      let id ← allocateNode ⟨false, .invalid, .invalid, [separator], [], [left, right]⟩
      setParent left id
      setParent right id
      setRoot id
    else
      let parent ← readNode leftNode.parent
      let i := parent.children.idxOf left
      if i = parent.children.length then throw (.logic "parent missing child")
      else
        let keys ← insertAt parent.keys i separator
        let children ← insertAt parent.children (i + 1) right
        setParent right leftNode.parent
        let tree ← get
        if keys.length ≤ tree.config.internalMaxKeys then
          writeNode leftNode.parent { parent with keys := keys, children := children }
        else
          let mid := keys.length / 2
          let promote ← getAt keys mid
          let sibling : Node := ⟨false, parent.parent, .invalid, keys.drop (mid + 1), [], children.drop (mid + 1)⟩
          let id ← allocateNode sibling
          writeNode leftNode.parent { parent with keys := keys.take mid, children := children.take (mid + 1) }
          setParents sibling.children id
          insertIntoParent fuel leftNode.parent promote id

def updateParentSeparator : Nat → PageId → KeyType → TreeOp Unit
  | 0, _, _ => throw .outOfFuel
  | fuel + 1, child, first => do
    let node ← readNode child
    if node.parent.isValid = false then return
    else
      let parent ← readNode node.parent
      let i := parent.children.idxOf child
      if i = parent.children.length then throw (.logic "parent missing child during separator update")
      else if i > 0 then
        let keys ← setAt parent.keys (i - 1) first
        writeNode node.parent { parent with keys := keys }
      else updateParentSeparator fuel node.parent first

def insertImpl (key : KeyType) (value : RecordId) : TreeOp Bool := do
  let id ← findLeaf key
  let leaf ← readNode id
  let at' := lowerBound leaf.keys key
  if leaf.keys[at']? = some key then return false
  else
    let keys ← insertAt leaf.keys at' key
    let values ← insertAt leaf.values at' value
    let tree ← get
    if keys.length ≤ tree.config.leafMaxKeys then
      writeNode id { leaf with keys := keys, values := values }
      if at' = 0 then updateParentSeparator (2 ^ 64) id key
      return true
    else
      let split := keys.length / 2
      let right : Node := ⟨true, leaf.parent, leaf.next, keys.drop split, values.drop split, []⟩
      let rightId ← allocateNode right
      writeNode id { leaf with next := rightId, keys := keys.take split, values := values.take split }
      let separator ← front right.keys
      insertIntoParent (2 ^ 64) id separator rightId
      return true

/-! ## Removal -/

/-- `rebalance_internal` with the neighbour on the left; `climb` is the call for the parent. -/
def rebalanceFromLeft (climb : PageId → TreeOp Unit) (id : PageId) (node parent : Node) (i min : Nat) : TreeOp Unit := do
  let leftId ← getAt parent.children (i - 1)
  let left ← readNode leftId
  let separator ← getAt parent.keys (i - 1)
  if left.keys.length > min then
    let moved ← back left.children
    let last ← back left.keys
    let keys ← setAt parent.keys (i - 1) last
    setParent moved id
    writeNode leftId { left with keys := left.keys.dropLast, children := left.children.dropLast }
    writeNode id { node with keys := separator :: node.keys, children := moved :: node.children }
    writeNode node.parent { parent with keys := keys }
  else
    setParents node.children leftId
    let keys ← eraseAt parent.keys (i - 1)
    let children ← eraseAt parent.children i
    writeNode leftId { left with keys := left.keys ++ separator :: node.keys, children := left.children ++ node.children }
    writeNode node.parent { parent with keys := keys, children := children }
    climb node.parent

/-- `rebalance_internal` with the neighbour on the right. -/
def rebalanceFromRight (climb : PageId → TreeOp Unit) (id : PageId) (node parent : Node) (i min : Nat) : TreeOp Unit := do
  let rightId ← getAt parent.children (i + 1)
  let right ← readNode rightId
  let separator ← getAt parent.keys i
  if right.keys.length > min then
    let moved ← front right.children
    let first ← front right.keys
    let keys ← setAt parent.keys i first
    setParent moved id
    writeNode id { node with keys := node.keys ++ [separator], children := node.children ++ [moved] }
    writeNode rightId { right with keys := right.keys.tail, children := right.children.tail }
    writeNode node.parent { parent with keys := keys }
  else
    setParents right.children id
    let keys ← eraseAt parent.keys i
    let children ← eraseAt parent.children (i + 1)
    writeNode id { node with keys := node.keys ++ separator :: right.keys, children := node.children ++ right.children }
    writeNode node.parent { parent with keys := keys, children := children }
    climb node.parent

def rebalanceInternal : Nat → PageId → TreeOp Unit
  | 0, _ => throw .outOfFuel
  | fuel + 1, id => do
    let node ← readNode id
    let tree ← get
    if id = tree.root then
      if node.keys.isEmpty then
        let child ← front node.children
        setParent child .invalid
        setRoot child
      else writeNode id node
    else
      let min := tree.config.internalMaxKeys / 2
      if node.keys.length ≥ min then writeNode id node
      else
        let parent ← readNode node.parent
        let i := parent.children.idxOf id
        if i > 0 then rebalanceFromLeft (rebalanceInternal fuel) id node parent i min
        else rebalanceFromRight (rebalanceInternal fuel) id node parent i min

/-- `rebalance_leaf` with the neighbour on the left. -/
def rebalanceLeafFromLeft (id : PageId) (node parent : Node) (i min : Nat) : TreeOp Unit := do
  let leftId ← getAt parent.children (i - 1)
  let left ← readNode leftId
  if left.keys.length > min then
    let key ← back left.keys
    let value ← back left.values
    let keys ← setAt parent.keys (i - 1) key
    writeNode leftId { left with keys := left.keys.dropLast, values := left.values.dropLast }
    writeNode id { node with keys := key :: node.keys, values := value :: node.values }
    writeNode node.parent { parent with keys := keys }
  else
    let keys ← eraseAt parent.keys (i - 1)
    let children ← eraseAt parent.children i
    writeNode leftId { left with next := node.next, keys := left.keys ++ node.keys, values := left.values ++ node.values }
    writeNode node.parent { parent with keys := keys, children := children }
    rebalanceInternal (2 ^ 64) node.parent

/-- `rebalance_leaf` with the neighbour on the right: the first key of the parent's subtree may have changed. -/
def rebalanceLeafFromRight (id : PageId) (node parent : Node) (i min : Nat) : TreeOp Unit := do
  let rightId ← getAt parent.children (i + 1)
  let right ← readNode rightId
  if right.keys.length > min then
    let key ← front right.keys
    let value ← front right.values
    let second ← front right.keys.tail
    let keys ← setAt parent.keys i second
    writeNode id { node with keys := node.keys ++ [key], values := node.values ++ [value] }
    writeNode rightId { right with keys := right.keys.tail, values := right.values.tail }
    writeNode node.parent { parent with keys := keys }
    let first ← front (node.keys ++ [key])
    updateParentSeparator (2 ^ 64) node.parent first
  else
    let keys ← eraseAt parent.keys i
    let children ← eraseAt parent.children (i + 1)
    writeNode id { node with next := right.next, keys := node.keys ++ right.keys, values := node.values ++ right.values }
    writeNode node.parent { parent with keys := keys, children := children }
    let first ← front (node.keys ++ right.keys)
    updateParentSeparator (2 ^ 64) node.parent first
    rebalanceInternal (2 ^ 64) node.parent

def rebalanceLeaf (id : PageId) : TreeOp Unit := do
  let node ← readNode id
  let parent ← readNode node.parent
  let tree ← get
  let i := parent.children.idxOf id
  let min := (tree.config.leafMaxKeys + 1) / 2
  if i > 0 then rebalanceLeafFromLeft id node parent i min
  else rebalanceLeafFromRight id node parent i min

def removeImpl (key : KeyType) : TreeOp Bool := do
  let id ← findLeaf key
  let leaf ← readNode id
  let at' := lowerBound leaf.keys key
  if leaf.keys[at']? = some key then
    let keys ← eraseAt leaf.keys at'
    let values ← eraseAt leaf.values at'
    let tree ← get
    writeNode id { leaf with keys := keys, values := values }
    if id = tree.root then return true
    else if keys.length ≥ (tree.config.leafMaxKeys + 1) / 2 then
      if at' = 0 ∧ keys.isEmpty = false then
        let first ← front keys
        updateParentSeparator (2 ^ 64) id first
      return true
    else
      rebalanceLeaf id
      return true
  else return false

end BPlusTree

end Ddb.Index
