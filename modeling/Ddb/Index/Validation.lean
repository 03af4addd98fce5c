import Mathlib.Data.Finset.Card
import Mathlib.Logic.Relation
import Ddb.Index.ReadOnly
import Ddb.Index.Structure
import Ddb.Lib.PagedAnswer

/-!
# The checker of the tree

`validate_invariants` walks the tree from the root. It reads every node once, and keeps the pages and the keys it has seen. In an
internal node each separator must be the first key of the child behind it, which `first_key` looks for by going down the first
children. In the end the leaves, in the order of the walk, must be linked in that order. It throws nothing: what is thrown on
the way makes it answer `false`.

The walk never enters a page twice, so it ends. `first_key` keeps no pages, and it goes down before the walk does: where the
first children lead back to a page they came from, it never returns.

Both recursions have `fuel` turns; whether the source returns is whether some number of turns is enough. Reading outside a page
or a vector is no exception and is not caught. The local variables `seen`, `leaves` and `unique` are passed along; a walk that
answers `false` has no further use for them. What the pool's own check answers is an input.
-/

namespace Ddb.Index

open Ddb.Lib Ddb.Storage

namespace BPlusTree

/-- The lambda `first_key`. -/
def firstKey : Nat → PageId → TreeOp KeyType
  | 0, _ => throw .outOfFuel
  | fuel + 1, id => do
    let node ← readNode id
    if node.leaf then
      match node.keys with
      | [] => throw (.runtime "empty child")
      | key :: _ => return key
    else
      let child ← front node.children
      firstKey fuel child

/-- The local variables of the walk. -/
structure Walked where
  seen : List PageId
  leaves : List PageId
  unique : List KeyType

/-- The loop `unique.insert` over the keys of a leaf. -/
def insertKeys : List KeyType → List KeyType → Option (List KeyType)
  | unique, [] => some unique
  | unique, key :: keys => if key ∈ unique then none else insertKeys (key :: unique) keys

/-- Every separator is the first key behind it. -/
def separatorsMatch (fuel : Nat) : List (KeyType × PageId) → TreeOp Bool
  | [] => return true
  | (key, child) :: rest => do
    let first ← firstKey fuel child
    if first ≠ key then return false else separatorsMatch fuel rest

/-- The loop over the children. -/
def walkChildren (walk : PageId → Walked → TreeOp (Option Walked)) : List PageId → Walked → TreeOp (Option Walked)
  | [], w => return some w
  | child :: children, w => do
    match ← walk child w with
    | none => return none
    | some w => walkChildren walk children w

/-- The lambda `walk`; `none` is `false`. -/
def walk (turns : Nat) : Nat → PageId → PageId → Walked → TreeOp (Option Walked)
  | 0, _, _, _ => throw .outOfFuel
  | fuel + 1, parent, id, w => do
    if id.isValid = false ∨ id ∈ w.seen then return none
    else
      let node ← readNode id
      if node.parent ≠ parent ∨ ¬ node.keys.Pairwise (· ≤ ·) then return none
      else if node.leaf then
        match insertKeys w.unique node.keys with
        | none => return none
        | some unique => return some ⟨id :: w.seen, w.leaves ++ [id], unique⟩
      else if node.children.length ≠ node.keys.length + 1 then return none
      else
        if ← separatorsMatch turns (node.keys.zip node.children.tail) then
          walkChildren (walk turns fuel id) node.children { w with seen := id :: w.seen }
        else return none

/-- The loop over the leaves, from the first one on. -/
def chainMatches : PageId → List PageId → TreeOp Bool
  | next, [] => return !next.isValid
  | next, expected :: leaves => do
    if next ≠ expected then return false
    else
      let node ← readNode next
      chainMatches node.next leaves

def checkTree (fuel : Nat) (poolValid : Bool) : TreeOp Bool := do
  let tree ← get
  match ← walk fuel fuel .invalid tree.root ⟨[], [], []⟩ with
  | none => return false
  | some w =>
    let linked ← chainMatches (w.leaves.headD .invalid) w.leaves
    return linked && poolValid

def validateInvariants (fuel : Nat) (poolValid : Bool) : TreeOp Bool :=
  tryCatch (checkTree fuel poolValid) fun e => if e = .outOfFuel ∨ e = .outOfBounds then throw e else return false

/-! ## It only reads -/

theorem reads_firstKey (fuel : Nat) (id : PageId) : (firstKey fuel id).Reads := by
  induction fuel generalizing id with
  | zero => exact Method.reads_throw _
  | succ fuel ih =>
    refine (reads_readNode id).bind fun node => ?_
    split
    · split
      · exact Method.reads_throw _
      · exact Method.reads_pure _
    · exact reads_getAt.bind fun child => ih child

theorem reads_separatorsMatch (fuel : Nat) (pairs : List (KeyType × PageId)) : (separatorsMatch fuel pairs).Reads := by
  induction pairs with
  | nil => exact Method.reads_pure _
  | cons pair rest ih =>
    refine (reads_firstKey fuel pair.2).bind fun first => ?_
    split
    · exact Method.reads_pure _
    · exact ih

theorem reads_walkChildren {visit : PageId → Walked → TreeOp (Option Walked)} (h : ∀ id w, (visit id w).Reads)
    (children : List PageId) (w : Walked) : (walkChildren visit children w).Reads := by
  induction children generalizing w with
  | nil => exact Method.reads_pure _
  | cons child children ih =>
    refine (h child w).bind fun result => ?_
    cases result with
    | none => exact Method.reads_pure _
    | some w => exact ih w

theorem reads_walk (turns fuel : Nat) (parent id : PageId) (w : Walked) : (walk turns fuel parent id w).Reads := by
  induction fuel generalizing parent id w with
  | zero => exact Method.reads_throw _
  | succ fuel ih =>
    rw [walk]
    split
    · exact Method.reads_pure _
    · refine (reads_readNode id).bind fun node => ?_
      split
      · exact Method.reads_pure _
      · split
        · cases insertKeys w.unique node.keys with
          | none | some unique => exact Method.reads_pure _
        · split
          · exact Method.reads_pure _
          · refine (reads_separatorsMatch turns _).bind fun matching => ?_
            split
            · exact reads_walkChildren (fun child w => ih id child w) _ _
            · exact Method.reads_pure _

theorem reads_chainMatches (next : PageId) (leaves : List PageId) : (chainMatches next leaves).Reads := by
  induction leaves generalizing next with
  | nil => exact Method.reads_pure _
  | cons expected leaves ih =>
    rw [chainMatches]
    split
    · exact Method.reads_pure _
    · exact (reads_readNode next).bind fun node => ih node.next

theorem reads_checkTree (fuel : Nat) (poolValid : Bool) : (checkTree fuel poolValid).Reads := by
  refine Method.reads_get.bind fun tree => (reads_walk _ _ _ _ _).bind fun result => ?_
  cases result with
  | none => exact Method.reads_pure _
  | some w => exact (reads_chainMatches _ _).bind fun linked => Method.reads_pure _

end BPlusTree

/-! ## What it answers -/

variable {m : Memory PageId Payload} {tree : BPlusTree} {config : BPlusTreeConfig} {id parent : PageId} {node : Node}
  {fuel turns : Nat}

/-- What a method of the tree that only reads answers, on pages with any content. -/
def BPlusTree.ask {α : Type} (tree : BPlusTree) (m : Memory PageId Payload) (x : TreeOp α) : Except Err α :=
  x.answer (.storage "no more pages") m tree

/-- The node on a page, or what `read_node` throws. -/
def readAt (config : BPlusTreeConfig) (m : Memory PageId Payload) (id : PageId) : Except Err Node :=
  match m id with
  | some page => decode config page
  | none => .error (.runtime "cannot fetch B+ tree node")

theorem nodeAt_eq_some : nodeAt config m id = some node ↔ readAt config m id = .ok node := by
  unfold nodeAt readAt
  cases m id with
  | none => exact ⟨nofun, nofun⟩
  | some page =>
    simp only [Option.bind_some]
    cases decode config page with
    | error e => exact ⟨nofun, nofun⟩
    | ok node => exact ⟨fun h => congrArg Except.ok (Option.some.inj h), fun h => congrArg some (Except.ok.inj h)⟩

namespace BPlusTree

theorem ask_bind {α β : Type} {x : TreeOp α} (h : x.Reads) (f : α → TreeOp β) :
    tree.ask m (x >>= f) = tree.ask m x >>= fun a => tree.ask m (f a) := Method.answer_bind h

theorem ask_readNode (id : PageId) : tree.ask m (readNode id) = readAt tree.config m id := by
  rw [ask, readNode, Method.answer_get_bind, Method.answer_bind (Method.reads_pin _ fun _ => rfl), Method.answer_pin, readAt]
  cases m id with
  | none => rfl
  | some page =>
    dsimp only [bind, Except.bind]
    cases decode tree.config page with
    | ok node | error e => rfl

theorem ask_readNode_bind {α : Type} (id : PageId) (f : Node → TreeOp α) :
    tree.ask m (readNode id >>= f) = readAt tree.config m id >>= fun node => tree.ask m (f node) := by
  rw [ask_bind (reads_readNode id), ask_readNode]

theorem ask_getAt {α : Type} (xs : List α) (i : Nat) : tree.ask m (getAt xs i) =
    (match xs[i]? with
      | some x => .ok x
      | none => .error .outOfBounds) := by
  rw [getAt]
  cases xs[i]? with
  | some x | none => rfl

theorem ask_getAt_some {α : Type} {xs : List α} {i : Nat} {x : α} (h : xs[i]? = some x) : tree.ask m (getAt xs i) = .ok x := by
  rw [ask_getAt, h]

theorem ask_firstKey (fuel : Nat) (id : PageId) : tree.ask m (firstKey (fuel + 1) id) = (do
    let node ← readAt tree.config m id
    if node.leaf then
      match node.keys with
      | [] => .error (.runtime "empty child")
      | key :: _ => .ok key
    else
      let child ← tree.ask m (front node.children)
      tree.ask m (firstKey fuel child)) := by
  rw [firstKey, ask_readNode_bind]
  congr 1
  funext node
  split
  · cases node.keys with
    | nil | cons key keys => rfl
  · exact ask_bind reads_getAt _

theorem ask_separatorsMatch (key : KeyType) (child : PageId) (rest : List (KeyType × PageId)) :
    tree.ask m (separatorsMatch turns ((key, child) :: rest)) = (do
      let first ← tree.ask m (firstKey turns child)
      if first ≠ key then .ok false else tree.ask m (separatorsMatch turns rest)) := by
  rw [separatorsMatch, ask_bind (reads_firstKey turns child)]
  congr 1
  funext first
  split
  · rfl
  · rfl

theorem ask_walkChildren {visit : PageId → Walked → TreeOp (Option Walked)} (h : ∀ id w, (visit id w).Reads) (child : PageId)
    (children : List PageId) (w : Walked) : tree.ask m (walkChildren visit (child :: children) w) = (do
      match ← tree.ask m (visit child w) with
      | none => .ok none
      | some w => tree.ask m (walkChildren visit children w)) := by
  rw [walkChildren, ask_bind (h child w)]
  congr 1
  funext result
  cases result with
  | none | some w => rfl

theorem ask_walk (turns fuel : Nat) (parent id : PageId) (w : Walked) : tree.ask m (walk turns (fuel + 1) parent id w) =
    (if id.isValid = false ∨ id ∈ w.seen then .ok none
    else do
      let node ← readAt tree.config m id
      if node.parent ≠ parent ∨ ¬ node.keys.Pairwise (· ≤ ·) then .ok none
      else if node.leaf then
        .ok ((insertKeys w.unique node.keys).map fun unique => ⟨id :: w.seen, w.leaves ++ [id], unique⟩)
      else if node.children.length ≠ node.keys.length + 1 then .ok none
      else
        let matching ← tree.ask m (separatorsMatch turns (node.keys.zip node.children.tail))
        if matching then tree.ask m (walkChildren (walk turns fuel id) node.children { w with seen := id :: w.seen })
        else .ok none) := by
  rw [walk]
  split
  · rfl
  · rw [ask_readNode_bind]
    congr 1
    funext node
    split
    · rfl
    · split
      · cases insertKeys w.unique node.keys with
        | none | some unique => rfl
      · split
        · rfl
        · rw [ask_bind (reads_separatorsMatch turns _)]
          congr 1
          funext matching
          cases matching with
          | true | false => rfl

theorem ask_chainMatches (next expected : PageId) (leaves : List PageId) :
    tree.ask m (chainMatches next (expected :: leaves)) = (if next ≠ expected then .ok false
      else do
        let node ← readAt tree.config m next
        tree.ask m (chainMatches node.next leaves)) := by
  rw [chainMatches]
  split
  · rfl
  · exact ask_readNode_bind next _

theorem ask_checkTree (fuel : Nat) (poolValid : Bool) : tree.ask m (checkTree fuel poolValid) = (do
    match ← tree.ask m (walk fuel fuel .invalid tree.root ⟨[], [], []⟩) with
    | none => .ok false
    | some w =>
      let linked ← tree.ask m (chainMatches (w.leaves.headD .invalid) w.leaves)
      .ok (linked && poolValid)) := by
  rw [checkTree, ask, Method.answer_get_bind, Method.answer_bind (reads_walk _ _ _ _ _)]
  congr 1
  funext result
  cases result with
  | none => rfl
  | some w => exact ask_bind (reads_chainMatches _ _) _

theorem ask_validateInvariants (fuel : Nat) (poolValid : Bool) : tree.ask m (validateInvariants fuel poolValid) =
    (match tree.ask m (checkTree fuel poolValid) with
      | .ok answer => .ok answer
      | .error e => if e = .outOfFuel ∨ e = .outOfBounds then .error e else .ok false) := by
  rw [validateInvariants, ask, Method.answer_tryCatch (reads_checkTree _ _), ← ask]
  cases tree.ask m (checkTree fuel poolValid) with
  | ok answer => rfl
  | error e =>
    dsimp only
    split
    · rfl
    · rfl

end BPlusTree

theorem readAt_ne_outOfFuel (config : BPlusTreeConfig) (m : Memory PageId Payload) (id : PageId) :
    readAt config m id ≠ .error .outOfFuel := by
  unfold readAt
  cases m id with
  | none => nofun
  | some page =>
    dsimp only [decode]
    split
    · nofun
    · split
      · split <;> nofun
      · split <;> nofun

/-- A leaf has a value for every key, an internal node one child more than keys. -/
theorem readAt_shape (h : readAt config m id = .ok node) : if node.leaf then node.values.length = node.keys.length
    else node.children.length = node.keys.length + 1 := by
  unfold readAt at h
  split at h
  · dsimp only [decode] at h
    split at h
    · cases h
    · split at h
      · split at h
        · cases h
        · obtain rfl := Except.ok.inj h
          simp
      · split at h
        · cases h
        · obtain rfl := Except.ok.inj h
          simp
  · cases h

theorem exists_first_child (h : readAt config m id = .ok node) (hleaf : node.leaf = false) : ∃ child, node.children[0]? = some child := by
  have hshape := readAt_shape h
  rw [if_neg (by simp [hleaf])] at hshape
  exact ⟨_, List.getElem?_eq_getElem (by omega)⟩

/-- With capacities that fit a page no entry is read outside it. -/
theorem readAt_ne_outOfBounds (haccepted : config.Accepted) (id : PageId) : readAt config m id ≠ .error .outOfBounds := by
  have hleaf := haccepted.leafSize
  have hinternal := haccepted.internalSize
  unfold readAt
  cases m id with
  | none => simp
  | some page =>
    dsimp only [decode]
    split
    · simp
    · rename_i hcount
      push Not at hcount
      have hmax := hcount.2
      split
      · rename_i htype
        rw [BPlusTreeConfig.maxKeys, if_pos htype] at hmax
        split
        · rename_i hlarge
          simp only [leafAt, kHeaderSize, kLeafEntrySize] at hlarge hleaf
          omega
        · simp
      · rename_i htype
        rw [BPlusTreeConfig.maxKeys, if_neg htype] at hmax
        split
        · rename_i hlarge
          simp only [internalAt, kHeaderSize, kInternalEntrySize] at hlarge hinternal
          omega
        · simp

/-! ## When it returns -/

section Graph

variable (config : BPlusTreeConfig) (m : Memory PageId Payload)

/-- `b` is a child of the internal node on page `a`. -/
def Child (a b : PageId) : Prop := ∃ node, nodeAt config m a = some node ∧ node.leaf = false ∧ b ∈ node.children

/-- `b` is the first child of the internal node on page `a`. -/
def FirstChild (a b : PageId) : Prop := ∃ node, nodeAt config m a = some node ∧ node.leaf = false ∧ node.children[0]? = some b

/-- Page `b` can be reached from page `a`. -/
def Reaches : PageId → PageId → Prop := Relation.ReflTransGen (Child config m)

end Graph

theorem FirstChild.child {a b : PageId} (h : FirstChild config m a b) : Child config m a b := by
  obtain ⟨node, hnode, hleaf, hchild⟩ := h
  exact ⟨node, hnode, hleaf, List.mem_of_getElem? hchild⟩

/-- There are no more ids than that. -/
theorem length_le_of_nodup {ids : List PageId} (h : ids.Nodup) : ids.length ≤ 2 ^ 64 := by
  have hindexes : (ids.map PageId.index).Nodup := h.map fun _ _ => PageId.ext_index
  have hsub : (ids.map PageId.index).toFinset ⊆ Finset.range (2 ^ 64) := by
    intro i hi
    obtain ⟨id, -, rfl⟩ := List.mem_map.mp (List.mem_toFinset.mp hi)
    exact Finset.mem_range.mpr id.value.toNat_lt
  have hcard := Finset.card_le_card hsub
  rw [List.toFinset_card_of_nodup hindexes, List.length_map, Finset.card_range] at hcard
  exact hcard

namespace BPlusTree

/-- The pages `first_key` has come through are all different, so it ends before they are more than there are ids. -/
theorem firstKey_returns {come : List PageId} (hnodup : come.Nodup)
    (hcome : ∀ p ∈ come, Relation.TransGen (FirstChild tree.config m) p id)
    (hacyclic : ∀ p, Relation.ReflTransGen (FirstChild tree.config m) id p → ¬ Relation.TransGen (FirstChild tree.config m) p p)
    (hfuel : 2 ^ 64 ≤ come.length + fuel) : tree.ask m (firstKey fuel id) ≠ .error .outOfFuel := by
  have hnew : id ∉ come := fun hid => hacyclic id .refl (hcome id hid)
  have hmore : (id :: come).Nodup := List.nodup_cons.mpr ⟨hnew, hnodup⟩
  induction fuel generalizing id come with
  | zero =>
    have hlength := length_le_of_nodup hmore
    rw [List.length_cons] at hlength
    omega
  | succ fuel ih =>
    rw [ask_firstKey]
    refine bind_ne_error (readAt_ne_outOfFuel tree.config m id) fun node hread => ?_
    split
    · split <;> nofun
    · rename_i hleaf
      obtain ⟨child, hchild⟩ := exists_first_child hread (Bool.eq_false_iff.mpr hleaf)
      rw [front, ask_getAt_some hchild]
      have hedge : FirstChild tree.config m id child := ⟨node, nodeAt_eq_some.mpr hread, Bool.eq_false_iff.mpr hleaf, hchild⟩
      have hback : ∀ p ∈ id :: come, Relation.TransGen (FirstChild tree.config m) p child :=
        List.forall_mem_cons.mpr ⟨.single hedge, fun p hp => (hcome p hp).tail hedge⟩
      have hacyclic' : ∀ p, Relation.ReflTransGen (FirstChild tree.config m) child p →
          ¬ Relation.TransGen (FirstChild tree.config m) p p := fun p hp => hacyclic p (hp.head hedge)
      have hnew' : child ∉ id :: come := fun hmem => hacyclic' child .refl (hback child hmem)
      exact ih hmore hback hacyclic' (by rw [List.length_cons]; omega) hnew' (List.nodup_cons.mpr ⟨hnew', hmore⟩)

/-- With capacities that fit a page, `first_key` reads no entry outside a page. -/
theorem firstKey_inBounds (haccepted : tree.config.Accepted) (fuel : Nat) (id : PageId) :
    tree.ask m (firstKey fuel id) ≠ .error .outOfBounds := by
  induction fuel generalizing id with
  | zero => nofun
  | succ fuel ih =>
    rw [ask_firstKey]
    refine bind_ne_error (readAt_ne_outOfBounds haccepted id) fun node hread => ?_
    split
    · split <;> nofun
    · rename_i hleaf
      obtain ⟨child, hchild⟩ := exists_first_child hread (Bool.eq_false_iff.mpr hleaf)
      rw [front, ask_getAt_some hchild]
      exact ih child

section Uncaught

variable {e : Err} {x : TreeOp (Option Walked)}

theorem separatorsMatch_returns {pairs : List (KeyType × PageId)}
    (h : ∀ pair ∈ pairs, tree.ask m (firstKey turns pair.2) ≠ .error e) :
    tree.ask m (separatorsMatch turns pairs) ≠ .error e := by
  induction pairs with
  | nil => nofun
  | cons pair rest ih =>
    obtain ⟨hfirst, hrest⟩ := List.forall_mem_cons.mp h
    rw [ask_separatorsMatch]
    refine bind_ne_error hfirst fun first _ => ?_
    split
    · nofun
    · exact ih hrest

/-- A call of the walk does not end with `e`, and it keeps what has been seen. -/
structure Ends (tree : BPlusTree) (m : Memory PageId Payload) (e : Err) (w : Walked) (x : TreeOp (Option Walked)) : Prop where
  returns : tree.ask m x ≠ .error e
  nodup : ∀ w', tree.ask m x = .ok (some w') → w'.seen.Nodup
  grows : ∀ w', tree.ask m x = .ok (some w') → w.seen.length ≤ w'.seen.length

theorem Ends.of_none {w : Walked} (h : tree.ask m x = .ok none) : Ends tree m e w x := by
  refine ⟨?_, fun w' hw' => ?_, fun w' hw' => ?_⟩
  · rw [h]
    nofun
  · cases h.symm.trans hw'
  · cases h.symm.trans hw'

theorem Ends.of_error {w : Walked} {e' : Err} (h : tree.ask m x = .error e') (he : e' ≠ e) : Ends tree m e w x := by
  refine ⟨fun hout => he (Except.error.inj (h.symm.trans hout)), fun w' hw' => ?_, fun w' hw' => ?_⟩
  · cases h.symm.trans hw'
  · cases h.symm.trans hw'

theorem Ends.of_some {w w₁ : Walked} (h : tree.ask m x = .ok (some w₁)) (hnodup : w₁.seen.Nodup)
    (hgrows : w.seen.length ≤ w₁.seen.length) : Ends tree m e w x := by
  refine ⟨fun hout => ?_, fun w' hw' => ?_, fun w' hw' => ?_⟩
  · cases h.symm.trans hout
  · cases h.symm.trans hw'
    exact hnodup
  · cases h.symm.trans hw'
    exact hgrows

/-- A call that answers as another one, made later. -/
theorem Ends.of_eq {w w₁ : Walked} {x y : TreeOp (Option Walked)} (h : Ends tree m e w₁ y) (hask : tree.ask m x = tree.ask m y)
    (hgrows : w.seen.length ≤ w₁.seen.length) : Ends tree m e w x :=
  ⟨hask ▸ h.returns, fun w' hw' => h.nodup w' (hask ▸ hw'), fun w' hw' => hgrows.trans (h.grows w' (hask ▸ hw'))⟩

theorem ends_walkChildren {visit : PageId → Walked → TreeOp (Option Walked)} (hreads : ∀ id w, (visit id w).Reads)
    {children : List PageId} {w : Walked} (hnodup : w.seen.Nodup)
    (h : ∀ child ∈ children, ∀ w' : Walked, w'.seen.Nodup → w.seen.length ≤ w'.seen.length → Ends tree m e w' (visit child w')) :
    Ends tree m e w (walkChildren visit children w) := by
  induction children generalizing w with
  | nil => exact .of_some rfl hnodup le_rfl
  | cons child children ih =>
    obtain ⟨hchild, hrest⟩ := List.forall_mem_cons.mp h
    have hfirst := hchild w hnodup le_rfl
    have hask := @ask_walkChildren m tree visit hreads child children w
    cases hvisit : tree.ask m (visit child w) with
    | error e' =>
      rw [hvisit] at hask
      exact .of_error hask fun he => hfirst.returns (he ▸ hvisit)
    | ok result =>
      rw [hvisit] at hask
      cases result with
      | none => exact .of_none hask
      | some w₁ =>
        have hgrows := hfirst.grows w₁ hvisit
        have hends := ih (hfirst.nodup w₁ hvisit) fun c hc w' hw' hle => hrest c hc w' hw' (hgrows.trans hle)
        exact hends.of_eq hask hgrows

/-- The walk sees a new page with each turn it takes. -/
theorem ends_walk {root : PageId} (hread : ∀ p, readAt tree.config m p ≠ .error e)
    (hfirst : ∀ p, Reaches tree.config m root p → tree.ask m (firstKey turns p) ≠ .error e)
    (hid : Reaches tree.config m root id) {w : Walked} (hnodup : w.seen.Nodup)
    (hfuel : e = .outOfFuel → 2 ^ 64 < w.seen.length + fuel) : Ends tree m e w (walk turns fuel parent id w) := by
  induction fuel generalizing parent id w with
  | zero =>
    refine .of_error rfl fun he => ?_
    have hlength := length_le_of_nodup hnodup
    have hlarge := hfuel he.symm
    omega
  | succ fuel ih =>
    have hask := @ask_walk m tree turns fuel parent id w
    split at hask
    · exact .of_none hask
    · rename_i hfresh
      push Not at hfresh
      have hseen : (id :: w.seen).Nodup := List.nodup_cons.mpr ⟨hfresh.2, hnodup⟩
      cases hnode : readAt tree.config m id with
      | error e' =>
        rw [hnode] at hask
        exact .of_error hask fun he => hread id (he ▸ hnode)
      | ok node =>
        rw [hnode, ok_bind] at hask
        split at hask
        · exact .of_none hask
        · split at hask
          · cases hkeys : insertKeys w.unique node.keys with
            | none =>
              rw [hkeys] at hask
              exact .of_none hask
            | some unique =>
              rw [hkeys] at hask
              exact .of_some hask hseen (Nat.le_succ _)
          · rename_i hleaf
            have hchildren : ∀ child ∈ node.children, Reaches tree.config m root child := fun child hchild =>
              hid.tail ⟨node, nodeAt_eq_some.mpr hnode, Bool.eq_false_iff.mpr hleaf, hchild⟩
            split at hask
            · exact .of_none hask
            · have hseparators : tree.ask m (separatorsMatch turns (node.keys.zip node.children.tail)) ≠ .error e :=
                separatorsMatch_returns fun pair hpair =>
                  hfirst _ (hchildren _ (List.mem_of_mem_tail (List.of_mem_zip hpair).2))
              cases hmatch : tree.ask m (separatorsMatch turns (node.keys.zip node.children.tail)) with
              | error e' =>
                rw [hmatch] at hask
                exact .of_error hask fun he => hseparators (he ▸ hmatch)
              | ok matching =>
                rw [hmatch] at hask
                cases matching with
                | false => exact .of_none hask
                | true =>
                  have hends : Ends tree m e { w with seen := id :: w.seen }
                      (walkChildren (walk turns fuel id) node.children { w with seen := id :: w.seen }) := by
                    refine ends_walkChildren (fun child w => reads_walk _ _ _ _ _) hseen fun child hchild w' hw' hle => ?_
                    refine ih (hchildren child hchild) hw' fun he => ?_
                    have hlarge := hfuel he
                    rw [List.length_cons] at hle
                    omega
                  exact hends.of_eq hask (Nat.le_succ _)

theorem chainMatches_returns (hread : ∀ p, readAt tree.config m p ≠ .error e) (next : PageId) (leaves : List PageId) :
    tree.ask m (chainMatches next leaves) ≠ .error e := by
  induction leaves generalizing next with
  | nil => nofun
  | cons expected leaves ih =>
    rw [ask_chainMatches]
    split
    · nofun
    · exact bind_ne_error (hread next) fun node _ => ih node.next

theorem checkTree_returns (hread : ∀ p, readAt tree.config m p ≠ .error e)
    (hfirst : ∀ p, Reaches tree.config m tree.root p → tree.ask m (firstKey fuel p) ≠ .error e)
    (hfuel : e = .outOfFuel → 2 ^ 64 < fuel) (poolValid : Bool) : tree.ask m (checkTree fuel poolValid) ≠ .error e := by
  have hwalk : Ends tree m e ⟨[], [], []⟩ (walk fuel fuel .invalid tree.root ⟨[], [], []⟩) :=
    ends_walk hread hfirst .refl List.nodup_nil fun he => by
      rw [List.length_nil, Nat.zero_add]
      exact hfuel he
  rw [ask_checkTree]
  refine bind_ne_error hwalk.returns fun result _ => ?_
  cases result with
  | none => nofun
  | some w => exact bind_ne_error (chainMatches_returns hread _ _) nofun

theorem validateInvariants_returns {poolValid : Bool} (h : tree.ask m (checkTree fuel poolValid) ≠ .error e) :
    tree.ask m (validateInvariants fuel poolValid) ≠ .error e := by
  rw [ask_validateInvariants]
  cases hcheck : tree.ask m (checkTree fuel poolValid) with
  | ok answer => nofun
  | error e' =>
    dsimp only
    split
    · exact fun hout => h (hcheck.trans hout)
    · nofun

end Uncaught

theorem validateInvariants_cases (fuel : Nat) (poolValid : Bool) :
    (∃ answer, tree.ask m (validateInvariants fuel poolValid) = .ok answer) ∨
      tree.ask m (validateInvariants fuel poolValid) = .error .outOfFuel ∨
      tree.ask m (validateInvariants fuel poolValid) = .error .outOfBounds := by
  rw [ask_validateInvariants]
  cases tree.ask m (checkTree fuel poolValid) with
  | ok answer => exact Or.inl ⟨answer, rfl⟩
  | error e =>
    dsimp only
    split
    · rename_i huncaught
      rcases huncaught with rfl | rfl
      · exact Or.inr (Or.inl rfl)
      · exact Or.inr (Or.inr rfl)
    · exact Or.inl ⟨false, rfl⟩

/-- The pages of a tree with these nodes. -/
def pagesOf (nodes : List (PageId × Node)) : Memory PageId Payload := fun id => (nodes.lookup id).bind encode

def smallTree : BPlusTree := ⟨.ofIndex 0, .ofIndex 1, ⟨2, 2⟩⟩

theorem accepted_smallTree : smallTree.config.Accepted := ⟨by decide, by decide, by decide, by decide⟩

theorem readAt_pagesOf {nodes : List (PageId × Node)} (hnode : nodes.lookup id = some node) (hsized : node.Sized smallTree.config) :
    readAt smallTree.config (pagesOf nodes) id = .ok node := by
  obtain ⟨page, hencode, hdecode⟩ := decode_encode accepted_smallTree hsized
  rw [readAt, pagesOf, hnode, Option.bind_some, hencode]
  exact hdecode

/-- A root with two leaves. -/
def twoLeaves : List (PageId × Node) :=
  [(.ofIndex 1, ⟨false, .invalid, .invalid, [5], [], [.ofIndex 2, .ofIndex 3]⟩),
    (.ofIndex 2, ⟨true, .ofIndex 1, .ofIndex 3, [1], [⟨.ofIndex 9, 0⟩], []⟩),
    (.ofIndex 3, ⟨true, .ofIndex 1, .invalid, [5], [⟨.ofIndex 9, 1⟩], []⟩)]

theorem readAt_twoLeaves (h : readAt smallTree.config (pagesOf twoLeaves) id = .ok node) : (id, node) ∈ twoLeaves := by
  have hsized : ∀ pair ∈ twoLeaves, twoLeaves.lookup pair.1 = some pair.2 ∧
      pair.2.keys.length ≤ smallTree.config.maxKeys pair.2.leaf ∧ (if pair.2.leaf then
        pair.2.values.length = pair.2.keys.length ∧ pair.2.children = [] else
        pair.2.children.length = pair.2.keys.length + 1 ∧ pair.2.values = []) := by decide
  by_cases hid : ∃ pair ∈ twoLeaves, pair.1 = id
  · obtain ⟨pair, hpair, rfl⟩ := hid
    obtain ⟨hlookup, hcount, hshape⟩ := hsized pair hpair
    rw [readAt_pagesOf hlookup ⟨hcount, hshape⟩] at h
    rw [← Except.ok.inj h]
    exact hpair
  · have hlookup : twoLeaves.lookup id = none := List.lookup_eq_none_iff.mpr fun pair hpair => by
      simpa using fun heq => hid ⟨pair, hpair, heq.symm⟩
    rw [readAt, pagesOf, hlookup] at h
    cases h

theorem firstChild_twoLeaves {a b : PageId} (h : FirstChild smallTree.config (pagesOf twoLeaves) a b) :
    a = .ofIndex 1 ∧ b = .ofIndex 2 := by
  obtain ⟨node, hnode, hleaf, hchild⟩ := h
  have hmem := readAt_twoLeaves (nodeAt_eq_some.mp hnode)
  simp only [twoLeaves, List.mem_cons, Prod.mk.injEq, List.not_mem_nil, or_false] at hmem
  rcases hmem with ⟨rfl, rfl⟩ | ⟨rfl, rfl⟩ | ⟨rfl, rfl⟩
  · exact ⟨rfl, (Option.some.inj hchild).symm⟩
  · cases hleaf
  · cases hleaf

/-- A root whose second child is its own first child. -/
def selfChild : List (PageId × Node) :=
  [(.ofIndex 1, ⟨false, .invalid, .invalid, [5], [], [.ofIndex 2, .ofIndex 3]⟩),
    (.ofIndex 3, ⟨false, .ofIndex 1, .invalid, [], [], [.ofIndex 3]⟩)]

theorem selfChild_firstKey (fuel : Nat) :
    smallTree.ask (pagesOf selfChild) (firstKey fuel (.ofIndex 3)) = .error .outOfFuel := by
  have hread := @readAt_pagesOf (.ofIndex 3) _ selfChild rfl ⟨by decide, by decide⟩
  induction fuel with
  | zero => rfl
  | succ fuel ih =>
    rw [ask_firstKey, hread]
    exact ih

end BPlusTree

end Ddb.Index
