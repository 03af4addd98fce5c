import Ddb.Storage.PageFields
import Mathlib.Order.Defs.LinearOrder

/-!
# Nodes of the B+ tree and their bytes

A node is a page: a header with the type, the parent, the next leaf and the number of keys, and behind it the entries. A leaf
has a record for every key, an internal node one child more than keys. `encode` is the byte part of `write_node`, `decode`
that of `read_node`; a node that fits its page reads back as it was written.
-/

namespace Ddb.Index

open Ddb.Lib Ddb.Storage

abbrev KeyType := Int64

instance : LinearOrder KeyType where
  le_refl := Int64.le_refl
  le_trans _ _ _ := Int64.le_trans
  le_antisymm _ _ := Int64.le_antisymm
  le_total := Int64.le_total
  lt_iff_le_not_ge a b := by simp [Int64.lt_iff_toInt_lt, Int64.le_iff_toInt_le]; omega
  toDecidableLE := inferInstance

structure RecordId where
  pageId : PageId
  slotId : UInt32
  deriving DecidableEq, Repr

structure BPlusTreeConfig where
  leafMaxKeys : Nat
  internalMaxKeys : Nat
  deriving DecidableEq

def kHeaderSize : Nat := 32
def kLeafEntrySize : Nat := 20
def kInternalEntrySize : Nat := 16
def kMetadataMagic : Bytes := [68, 68, 66, 66, 80, 84, 51, 0]

structure Node where
  leaf : Bool
  parent : PageId
  next : PageId
  keys : List KeyType
  values : List RecordId
  children : List PageId
  deriving DecidableEq

/-! ## The codec -/

def keyBytes (key : KeyType) : Bytes := leBytes 8 key.toUInt64.toNat

def getKey (page : Payload) (at' : Nat) : KeyType := Int64.ofUInt64 (UInt64.ofNat (leValue (window page.bytes at' 8)))

def getRecordId (page : Payload) (at' : Nat) : RecordId :=
  ⟨getPageId page at', UInt32.ofNat (leValue (window page.bytes (at' + 8) 4))⟩

def leafAt (i : Nat) : Nat := kHeaderSize + i * kLeafEntrySize

def internalAt (i : Nat) : Nat := kHeaderSize + 8 + i * kInternalEntrySize

def headerWrites (node : Node) : List (Nat × Bytes) :=
  [(0, [if node.leaf then 1 else 2]), (4, leBytes 8 node.parent.index), (12, leBytes 8 node.next.index),
    (20, leBytes 2 node.keys.length)]

/-- The entries of a leaf, from number `i` on. -/
def leafWrites : Nat → List (KeyType × RecordId) → List (Nat × Bytes)
  | _, [] => []
  | i, (key, value) :: rest =>
    (leafAt i, keyBytes key) :: (leafAt i + 8, leBytes 8 value.pageId.index) ::
      (leafAt i + 16, leBytes 4 value.slotId.toNat) :: leafWrites (i + 1) rest

/-- The keys of an internal node, each with the child behind it, from number `i` on. -/
def internalWrites : Nat → List (KeyType × PageId) → List (Nat × Bytes)
  | _, [] => []
  | i, (key, child) :: rest =>
    (internalAt i, keyBytes key) :: (internalAt i + 8, leBytes 8 child.index) :: internalWrites (i + 1) rest

def encode (node : Node) : Option Payload :=
  if node.leaf then puts .zero (headerWrites node ++ leafWrites 0 (node.keys.zip node.values))
  else
    match node.children with
    | [] => none
    | child :: children =>
      puts .zero (headerWrites node ++ (kHeaderSize, leBytes 8 child.index) :: internalWrites 0 (node.keys.zip children))

def BPlusTreeConfig.maxKeys (config : BPlusTreeConfig) (leaf : Bool) : Nat :=
  if leaf then config.leafMaxKeys else config.internalMaxKeys

def decode (config : BPlusTreeConfig) (page : Payload) : Except Err Node :=
  let type := leValue (window page.bytes 0 1)
  let leaf := decide (type = 1)
  let parent := getPageId page 4
  let next := getPageId page 12
  let count := get16 page 20
  if (type ≠ 1 ∧ type ≠ 2) ∨ count > config.maxKeys leaf then .error (.runtime "corrupt B+ tree node")
  else if leaf then
    if leafAt count > kPagePayloadSize then .error .outOfBounds
    else .ok { leaf := true, parent := parent, next := next
               keys := (List.range count).map fun i => getKey page (leafAt i)
               values := (List.range count).map fun i => getRecordId page (leafAt i + 8)
               children := [] }
  else
    if internalAt count > kPagePayloadSize then .error .outOfBounds
    else .ok { leaf := false, parent := parent, next := next
               keys := (List.range count).map fun i => getKey page (internalAt i)
               values := []
               children := getPageId page kHeaderSize ::
                 (List.range count).map fun i => getPageId page (internalAt i + 8) }

/-! ## Reading back -/

section Fields

variable {page page' : Payload} {at' i : Nat}

theorem getKey_of_window {key : KeyType} (h : window page.bytes at' 8 = keyBytes key) : getKey page at' = key := by
  rw [getKey, h, keyBytes, ofNat_leValue_leBytes]

theorem getRecordId_of_window {value : RecordId} (hpage : window page.bytes at' 8 = leBytes 8 value.pageId.index)
    (hslot : window page.bytes (at' + 8) 4 = leBytes 4 value.slotId.toNat) : getRecordId page at' = value := by
  rw [getRecordId, getPageId_of_window hpage, hslot, leValue_leBytes_of_lt value.slotId.toNat_lt, UInt32.ofNat_toNat]

@[simp] theorem keyBytes_length (key : KeyType) : (keyBytes key).length = 8 := leBytes_length 8 _

theorem leafAt_succ (i : Nat) : leafAt (i + 1) = leafAt i + 20 := by
  simp only [leafAt, kLeafEntrySize]
  omega

theorem internalAt_succ (i : Nat) : internalAt (i + 1) = internalAt i + 16 := by
  simp only [internalAt, kInternalEntrySize]
  omega

theorem leafAt_le {j : Nat} (h : i ≤ j) : leafAt i ≤ leafAt j := by
  simp only [leafAt, kLeafEntrySize]
  omega

theorem internalAt_le {j : Nat} (h : i ≤ j) : internalAt i ≤ internalAt j := by
  simp only [internalAt, kInternalEntrySize]
  omega

/-- The entries of a leaf lie in their own slots. -/
theorem leafWrites_bounds {entries : List (KeyType × RecordId)} {write : Nat × Bytes} (h : write ∈ leafWrites i entries) :
    leafAt i ≤ write.1 ∧ write.1 + write.2.length ≤ leafAt (i + entries.length) := by
  induction entries generalizing i with
  | nil => cases h
  | cons entry rest ih =>
    simp only [leafWrites, List.mem_cons] at h
    rw [List.length_cons]
    have hlast : leafAt (i + 1) ≤ leafAt (i + (rest.length + 1)) := leafAt_le (by omega)
    have hnext := leafAt_succ i
    rcases h with rfl | rfl | rfl | h
    · simp only [keyBytes_length]; omega
    · simp only [leBytes_length]; omega
    · simp only [leBytes_length]; omega
    · obtain ⟨hlow, hhigh⟩ := ih h
      rw [Nat.add_right_comm] at hhigh
      exact ⟨by omega, hhigh⟩

theorem internalWrites_bounds {entries : List (KeyType × PageId)} {write : Nat × Bytes} (h : write ∈ internalWrites i entries) :
    internalAt i ≤ write.1 ∧ write.1 + write.2.length ≤ internalAt (i + entries.length) := by
  induction entries generalizing i with
  | nil => cases h
  | cons entry rest ih =>
    simp only [internalWrites, List.mem_cons] at h
    rw [List.length_cons]
    have hlast : internalAt (i + 1) ≤ internalAt (i + (rest.length + 1)) := internalAt_le (by omega)
    have hnext := internalAt_succ i
    rcases h with rfl | rfl | h
    · simp only [keyBytes_length]; omega
    · simp only [leBytes_length]; omega
    · obtain ⟨hlow, hhigh⟩ := ih h
      rw [Nat.add_right_comm] at hhigh
      exact ⟨by omega, hhigh⟩

theorem leafWrites_read {entries : List (KeyType × RecordId)} (h : puts page (leafWrites i entries) = some page') (j : Nat)
    {entry : KeyType × RecordId} (hentry : entries[j]? = some entry) :
    getKey page' (leafAt (i + j)) = entry.1 ∧ getRecordId page' (leafAt (i + j) + 8) = entry.2 := by
  induction entries generalizing page i j with
  | nil => simp at hentry
  | cons first rest ih =>
    cases j with
    | zero =>
      obtain rfl : first = entry := by simpa using hentry
      have hapart : ∀ at' n, at' + n ≤ leafAt (i + 1) → ∀ write ∈ leafWrites (i + 1) rest, Apart at' n write :=
        fun at' n hle write hwrite => .inl (hle.trans (leafWrites_bounds hwrite).1)
      have hsize := leafAt_succ i
      rw [Nat.add_zero]
      refine ⟨getKey_of_window ?_, getRecordId_of_window ?_ ?_⟩
      · refine @window_puts_field _ _ _ (keyBytes first.1) [] _ h ?_
        simp only [List.forall_mem_cons, Apart, keyBytes_length]
        exact ⟨by omega, by omega, hapart _ _ (by omega)⟩
      · refine @window_puts_field _ _ _ (leBytes 8 first.2.pageId.index) [_] _ h ?_
        simp only [List.forall_mem_cons, Apart, leBytes_length]
        exact ⟨by omega, hapart _ _ (by omega)⟩
      · refine @window_puts_field _ _ _ (leBytes 4 first.2.slotId.toNat) [_, _] _ h ?_
        simp only [leBytes_length]
        exact hapart _ _ (by omega)
    | succ j =>
      obtain ⟨page₁, -, h⟩ := puts_cons h
      obtain ⟨page₂, -, h⟩ := puts_cons h
      obtain ⟨page₃, -, h⟩ := puts_cons h
      have hnext := ih h j (by simpa using hentry)
      rwa [Nat.add_right_comm] at hnext

theorem internalWrites_read {entries : List (KeyType × PageId)} (h : puts page (internalWrites i entries) = some page') (j : Nat)
    {entry : KeyType × PageId} (hentry : entries[j]? = some entry) :
    getKey page' (internalAt (i + j)) = entry.1 ∧ getPageId page' (internalAt (i + j) + 8) = entry.2 := by
  induction entries generalizing page i j with
  | nil => simp at hentry
  | cons first rest ih =>
    cases j with
    | zero =>
      obtain rfl : first = entry := by simpa using hentry
      have hapart : ∀ at' n, at' + n ≤ internalAt (i + 1) → ∀ write ∈ internalWrites (i + 1) rest, Apart at' n write :=
        fun at' n hle write hwrite => .inl (hle.trans (internalWrites_bounds hwrite).1)
      have hsize := internalAt_succ i
      rw [Nat.add_zero]
      refine ⟨getKey_of_window ?_, getPageId_of_window ?_⟩
      · refine @window_puts_field _ _ _ (keyBytes first.1) [] _ h ?_
        simp only [List.forall_mem_cons, Apart, keyBytes_length]
        exact ⟨by omega, hapart _ _ (by omega)⟩
      · refine @window_puts_field _ _ _ (leBytes 8 first.2.index) [_] _ h ?_
        simp only [leBytes_length]
        exact hapart _ _ (by omega)
    | succ j =>
      obtain ⟨page₁, -, h⟩ := puts_cons h
      obtain ⟨page₂, -, h⟩ := puts_cons h
      have hnext := ih h j (by simpa using hentry)
      rwa [Nat.add_right_comm] at hnext

end Fields

/-- What `create` asks of the capacities. -/
structure BPlusTreeConfig.Accepted (config : BPlusTreeConfig) : Prop where
  leaf : 2 ≤ config.leafMaxKeys
  internal : 2 ≤ config.internalMaxKeys
  leafSize : kHeaderSize + config.leafMaxKeys * kLeafEntrySize ≤ kPagePayloadSize
  internalSize : kHeaderSize + 8 + config.internalMaxKeys * kInternalEntrySize ≤ kPagePayloadSize

/-- As many entries as the type asks for, and not more than there may be. -/
structure Node.Sized (config : BPlusTreeConfig) (node : Node) : Prop where
  count : node.keys.length ≤ config.maxKeys node.leaf
  shape : if node.leaf then node.values.length = node.keys.length ∧ node.children = []
    else node.children.length = node.keys.length + 1 ∧ node.values = []

variable {config : BPlusTreeConfig} {node : Node} {page : Payload}

theorem headerWrites_bounds {write : Nat × Bytes} (h : write ∈ headerWrites node) :
    write.1 + write.2.length ≤ kHeaderSize := by
  simp only [headerWrites, List.mem_cons, List.not_mem_nil, or_false] at h
  rcases h with rfl | rfl | rfl | rfl <;> simp [kHeaderSize]

/-- A node is written if what stands behind the header fits, and the header reads back. -/
theorem exists_headed {writes : List (Nat × Bytes)} (hcount : node.keys.length < 2 ^ 16)
    (hwrites : ∀ write ∈ writes, kHeaderSize ≤ write.1 ∧ write.1 + write.2.length ≤ kPagePayloadSize) :
    ∃ page, puts .zero (headerWrites node ++ writes) = some page ∧ leValue (window page.bytes 0 1) = (if node.leaf then 1 else 2) ∧
      getPageId page 4 = node.parent ∧ getPageId page 12 = node.next ∧ get16 page 20 = node.keys.length := by
  obtain ⟨page, hpage⟩ := puts_eq_some .zero (headerWrites node ++ writes) (by
    intro write hwrite
    rcases List.mem_append.mp hwrite with hwrite | hwrite
    · exact (headerWrites_bounds hwrite).trans (by decide)
    · exact (hwrites write hwrite).2)
  refine ⟨page, hpage, ?_⟩
  have hbehind : ∀ at' n, at' + n ≤ 32 → ∀ write ∈ writes, Apart at' n write := fun at' n hle write hwrite =>
    .inl (hle.trans (hwrites write hwrite).1)
  rw [headerWrites, List.cons_append, List.cons_append, List.cons_append, List.cons_append, List.nil_append] at hpage
  refine ⟨?_, getPageId_of_window ?_, getPageId_of_window ?_, get16_of_window ?_ hcount⟩
  · have hwindow := window_puts_field [] hpage (by
      simp only [List.forall_mem_cons, Apart, leBytes_length, List.length_singleton]
      exact ⟨by omega, by omega, by omega, hbehind _ _ (by omega)⟩)
    rw [List.length_singleton] at hwindow
    rw [hwindow]
    cases node.leaf <;> rfl
  · refine @window_puts_field _ _ _ (leBytes 8 node.parent.index) [_] _ hpage ?_
    simp only [List.forall_mem_cons, Apart, leBytes_length]
    exact ⟨by omega, by omega, hbehind _ _ (by omega)⟩
  · refine @window_puts_field _ _ _ (leBytes 8 node.next.index) [_, _] _ hpage ?_
    simp only [List.forall_mem_cons, Apart, leBytes_length]
    exact ⟨by omega, hbehind _ _ (by omega)⟩
  · refine @window_puts_field _ _ _ (leBytes 2 node.keys.length) [_, _, _] _ hpage ?_
    simp only [leBytes_length]
    exact hbehind _ _ (by omega)

/-- Reading one pair after the other. -/
theorem map_range_zip {α β : Type} {first : List α} {second : List β} {f : Nat → α} {g : Nat → β}
    (hlength : second.length = first.length)
    (h : ∀ i entry, (first.zip second)[i]? = some entry → f i = entry.1 ∧ g i = entry.2) :
    (List.range first.length).map f = first ∧ (List.range first.length).map g = second := by
  have hzip : (first.zip second).length = first.length := by rw [List.length_zip, hlength, Nat.min_self]
  have hpairs : (List.range first.length).map (fun i => (f i, g i)) = first.zip second := by
    apply List.ext_getElem (by simp [hlength])
    intro i _ hi
    rw [List.getElem_map, List.getElem_range]
    exact Prod.ext_iff.mpr (h i _ (List.getElem?_eq_getElem hi))
  have hfirst := congrArg (List.map Prod.fst) hpairs
  have hsecond := congrArg (List.map Prod.snd) hpairs
  rw [List.map_map, List.map_fst_zip hlength.ge] at hfirst
  rw [List.map_map, List.map_snd_zip hlength.le] at hsecond
  exact ⟨hfirst, hsecond⟩

theorem Node.Sized.fits (h : node.Sized config) (haccepted : config.Accepted) :
    if node.leaf then leafAt node.keys.length ≤ kPagePayloadSize else internalAt node.keys.length ≤ kPagePayloadSize := by
  have hcount := h.count
  have hleaf := haccepted.leafSize
  have hinternal := haccepted.internalSize
  cases hnode : node.leaf with
  | true =>
    simp only [hnode, BPlusTreeConfig.maxKeys, if_true, leafAt, kHeaderSize, kLeafEntrySize] at hcount hleaf ⊢
    omega
  | false =>
    simp only [hnode, BPlusTreeConfig.maxKeys, Bool.false_eq_true, if_false, internalAt, kHeaderSize, kInternalEntrySize]
      at hcount hinternal ⊢
    omega

theorem Node.Sized.count_lt (h : node.Sized config) (haccepted : config.Accepted) : node.keys.length < 2 ^ 16 := by
  have hfits := h.fits haccepted
  simp only [leafAt, internalAt, kHeaderSize, kLeafEntrySize, kInternalEntrySize, kPagePayloadSize_eq] at hfits
  split at hfits <;> omega

/-- A leaf reads back as it was written. -/
theorem decode_encode_leaf (haccepted : config.Accepted) (h : node.Sized config) (hleaf : node.leaf = true) :
    ∃ page, encode node = some page ∧ decode config page = .ok node := by
  have hfits := h.fits haccepted
  have hcount := h.count_lt haccepted
  have hmax := h.count
  obtain ⟨hvalues, hchildren⟩ : node.values.length = node.keys.length ∧ node.children = [] := by
    simpa only [hleaf, if_true] using h.shape
  simp only [hleaf, if_true] at hfits hmax
  have hlength : (node.keys.zip node.values).length = node.keys.length := by rw [List.length_zip]; omega
  have hbounds : ∀ write ∈ leafWrites 0 (node.keys.zip node.values),
      kHeaderSize ≤ write.1 ∧ write.1 + write.2.length ≤ kPagePayloadSize := by
    intro write hwrite
    have hzero : leafAt 0 = kHeaderSize := rfl
    obtain ⟨hlow, hhigh⟩ := leafWrites_bounds hwrite
    rw [hlength, Nat.zero_add] at hhigh
    omega
  obtain ⟨page, hpage, htype, hparent, hnext, hkeys⟩ := exists_headed hcount hbounds
  obtain ⟨page₁, -, hentries⟩ := puts_append hpage
  refine ⟨page, by rw [encode, if_pos hleaf, hpage], ?_⟩
  rw [hleaf, if_pos rfl] at htype
  obtain ⟨hkeysRead, hvaluesRead⟩ := map_range_zip hvalues fun i entry hentry => Nat.zero_add i ▸ leafWrites_read hentries i hentry
  have hvalid : ¬ ((1 ≠ 1 ∧ 1 ≠ 2) ∨ node.keys.length > config.maxKeys (decide True)) := by
    simpa using hmax
  rw [decode]
  simp only [htype, hkeys, hparent, hnext, hkeysRead, hvaluesRead]
  rw [if_neg hvalid, if_pos (by decide), if_neg (by omega), ← hchildren, ← hleaf]

theorem decode_encode_internal (haccepted : config.Accepted) (h : node.Sized config) (hleaf : node.leaf = false) :
    ∃ page, encode node = some page ∧ decode config page = .ok node := by
  have hfits := h.fits haccepted
  have hcount := h.count_lt haccepted
  have hmax := h.count
  obtain ⟨hlength, hvalues⟩ : node.children.length = node.keys.length + 1 ∧ node.values = [] := by
    simpa only [hleaf, Bool.false_eq_true, if_false] using h.shape
  simp only [hleaf, Bool.false_eq_true, if_false] at hfits hmax
  obtain ⟨child, children, hchildren⟩ := List.exists_cons_of_length_pos (l := node.children) (by omega)
  have hrest : children.length = node.keys.length := by
    rw [hchildren, List.length_cons] at hlength
    omega
  have hzip : (node.keys.zip children).length = node.keys.length := by rw [List.length_zip]; omega
  have hbounds : ∀ write ∈ (kHeaderSize, leBytes 8 child.index) :: internalWrites 0 (node.keys.zip children),
      kHeaderSize ≤ write.1 ∧ write.1 + write.2.length ≤ kPagePayloadSize := by
    intro write hwrite
    have hfirst : internalAt 0 ≤ internalAt node.keys.length := internalAt_le (Nat.zero_le _)
    have hzero : internalAt 0 = kHeaderSize + 8 := rfl
    rcases List.mem_cons.mp hwrite with rfl | hwrite
    · exact ⟨le_rfl, by rw [leBytes_length]; omega⟩
    · obtain ⟨hlow, hhigh⟩ := internalWrites_bounds hwrite
      rw [hzip, Nat.zero_add] at hhigh
      omega
  obtain ⟨page, hpage, htype, hparent, hnext, hkeys⟩ := exists_headed hcount hbounds
  refine ⟨page, by rw [encode, hleaf, hchildren]; exact hpage, ?_⟩
  rw [hleaf, if_neg (by decide)] at htype
  have hchild : getPageId page kHeaderSize = child := by
    refine getPageId_of_window (@window_puts_field _ _ _ (leBytes 8 child.index) _ _ hpage fun write hwrite => .inl ?_)
    rw [leBytes_length]
    exact (internalWrites_bounds hwrite).1
  obtain ⟨page₁, -, hentries⟩ := puts_append hpage
  obtain ⟨page₂, -, hentries⟩ := puts_cons hentries
  obtain ⟨hkeysRead, hchildrenRead⟩ := map_range_zip hrest fun i entry hentry => Nat.zero_add i ▸ internalWrites_read hentries i hentry
  have hvalid : ¬ ((2 ≠ 1 ∧ 2 ≠ 2) ∨ node.keys.length > config.maxKeys (decide (2 = 1))) := by
    simpa using hmax
  rw [decode]
  simp only [htype, hkeys, hparent, hnext, hkeysRead, hchild, hchildrenRead]
  rw [if_neg hvalid, if_neg (by decide), if_neg (by omega), ← hleaf, ← hvalues, ← hchildren]

/-- **Round trip.** A node of a legal size reads back from its page. -/
theorem decode_encode (haccepted : config.Accepted) (h : node.Sized config) :
    ∃ page, encode node = some page ∧ decode config page = .ok node := by
  cases hleaf : node.leaf with
  | true => exact decode_encode_leaf haccepted h hleaf
  | false => exact decode_encode_internal haccepted h hleaf

end Ddb.Index
