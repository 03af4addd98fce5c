import Ddb.Index.Remove

/-!
# The tree refines a map

The calls of one tree on a database, each made for some transaction or for none. As long as no page access and no
allocation fails, they answer as a map from keys to record ids does that starts empty.
-/

namespace Ddb.Index

open Ddb.Lib Ddb.Storage Ddb.Buffer Ddb.Concurrency
open Ddb.Lib.Group (Sorted)

inductive TreeCall where
  | insert (key : KeyType) (value : RecordId)
  | remove (key : KeyType)
  | getValue (key : KeyType)
  | scan (low high : KeyType)
  | reopen

inductive TreeAnswer where
  | inserted (done : Bool)
  | removed (done : Bool)
  | found (value : Option RecordId)
  | rows (rows : List Entry)
  | reopened
  deriving DecidableEq

def TreeCall.method : TreeCall → TreeOp TreeAnswer
  | .insert key value => do return .inserted (← BPlusTree.insertImpl key value)
  | .remove key => do return .removed (← BPlusTree.removeImpl key)
  | .getValue key => do return .found (← BPlusTree.getValue key)
  | .scan low high => do return .rows (← BPlusTree.scan low high)
  | .reopen => do
    BPlusTree.reopen
    return .reopened

/-! ## Runs of a tree -/

/-- A tree object and the database it lives in. -/
structure TreeState where
  db : Database
  tree : BPlusTree

namespace TreeState

/-- One call, for a transaction or for none. -/
def call (s : TreeState) (client : Option TransactionId) (c : TreeCall) : Except Err TreeAnswer × TreeState :=
  let result := (c.method.run s.tree).run (Database.pager client) s.db
  (result.1.1, ⟨result.2, result.1.2⟩)

/-- What a list of calls answers. -/
def answers : TreeState → List (Option TransactionId × TreeCall) → List (Except Err TreeAnswer)
  | _, [] => []
  | s, (client, c) :: rest => (s.call client c).1 :: answers (s.call client c).2 rest

/-- The state after a list of calls. -/
def after : TreeState → List (Option TransactionId × TreeCall) → TreeState
  | s, [] => s
  | s, (client, c) :: rest => after (s.call client c).2 rest

/-- No page access and no allocation of the calls fails. -/
def Smooth : TreeState → List (Option TransactionId × TreeCall) → Prop
  | _, [] => True
  | s, (client, c) :: rest =>
    (c.method.run s.tree).Smooth (Database.pager client) s.db ∧ Smooth (s.call client c).2 rest

instance decidableSmooth : (s : TreeState) → (calls : List (Option TransactionId × TreeCall)) → Decidable (s.Smooth calls)
  | _, [] => isTrue trivial
  | s, (client, c) :: rest =>
    have := decidableSmooth (s.call client c).2 rest
    inferInstanceAs (Decidable (_ ∧ _))

end TreeState

namespace BPlusTree

/-- The page accesses of the two `create` functions. -/
def creation {σ : Type} : Option TransactionId → BPlusTreeConfig → Method PageId Payload Err σ PageId
  | some _ => createLogged
  | none => create

/-- `create`, in a transaction or without one. Without one it ends with a flush of the pool. -/
def createFor (client : Option TransactionId) (config : BPlusTreeConfig) (db : Database) : Except Err PageId × Database :=
  let result := ((creation client config).run ()).run (Database.pager client) db
  match client, result.1.1 with
  | none, .ok id =>
    let flushed := (Database.onCache Cache.flushAllPages).run result.2
    (flushed.1.map fun _ => id, flushed.2)
  | _, outcome => (outcome, result.2)

end BPlusTree

/-! ## Runs of a map -/

abbrev KeyMap := KeyType → Option RecordId

namespace KeyMap

def after (map : KeyMap) : TreeCall → KeyMap
  | .insert key value => if map key = none then Function.update map key (some value) else map
  | .remove key => Function.update map key none
  | .getValue _ | .scan _ _ | .reopen => map

/-- What a call answers. -/
def Answers (map : KeyMap) : TreeCall → Except Err TreeAnswer → Prop
  | .insert key _, answer => answer = .ok (.inserted (map key).isNone)
  | .remove key, answer => answer = .ok (.removed (map key).isSome)
  | .getValue key, answer => answer = .ok (.found (map key))
  | .scan low high, answer => ∃ rows, answer = .ok (.rows rows) ∧ Sorted rows ∧
      ∀ key value, (key, value) ∈ rows ↔ low ≤ key ∧ key ≤ high ∧ map key = some value
  | .reopen, answer => answer = .ok .reopened

/-- The answers to a list of calls, one after the other. -/
def Runs : KeyMap → List TreeCall → List (Except Err TreeAnswer) → Prop
  | _, [], [] => True
  | map, c :: rest, answer :: answers => map.Answers c answer ∧ (map.after c).Runs rest answers
  | _, _, _ => False

end KeyMap

/-! ## Opening -/

variable {m : Memory PageId Payload} {tree tree' : BPlusTree} {s s' : Store} {levels : List (List Inner)} {leaves : List Leaf}
  {config : BPlusTreeConfig} {map : KeyMap} {metadata root : PageId}

theorem gives_openTree {σ : Type} {o : σ} {page : Payload} (hpage : m metadata = some page)
    (hheader : HeaderPage page root config) (haccepted : config.Accepted) (hvalid : root.isValid = true) :
    (BPlusTree.openTree metadata : Method PageId Payload Err σ BPlusTree).Gives Database.blank o m fun tree o' m' =>
      tree = ⟨metadata, root, config⟩ ∧ o' = o ∧ m' = m := by
  have hleaf := haccepted.leaf
  have hinternal := haccepted.internal
  apply Method.gives_bind
  refine Method.gives_pin hpage ?_
  dsimp only
  rw [hheader.root, hheader.leafMaxKeys, hheader.internalMaxKeys, if_neg]
  · exact Method.gives_pure ⟨rfl, rfl, rfl⟩
  · simp only [hheader.magic, hvalid]
    simp
    omega

/-- The tree object is in order on the memory, with these entries. -/
structure Represents (m : Memory PageId Payload) (tree : BPlusTree) (s : Store) (levels : List (List Inner)) (leaves : List Leaf)
    (map : KeyMap) : Prop where
  store : Store.Of tree.config s m
  stands : Stands tree s none levels leaves
  entries : ∀ key value, (key, value) ∈ leaves.flatMap Leaf.entries ↔ map key = some value

theorem Stands.root_valid (h : Stands tree s none levels leaves) : tree.root.isValid = true := by
  by_cases hlevels : levels = []
  · subst hlevels
    obtain ⟨⟨low, hitems⟩, -⟩ := h.upper.tower
    obtain ⟨l, rfl, hl⟩ := List.map_eq_singleton_iff.mp hitems
    have hroot : l.id = tree.root := congrArg Prod.snd hl
    rw [← hroot]
    exact h.valid l (by simp)
  · exact h.upper.valid _ (h.upper.root_mem hlevels)

theorem Represents.gives_open {σ : Type} {o : σ} (h : Represents m tree s levels leaves map) :
    (BPlusTree.openTree tree.metadata : Method PageId Payload Err σ BPlusTree).Gives Database.blank o m fun tree' o' m' =>
      tree' = tree ∧ o' = o ∧ m' = m := by
  obtain ⟨page, hpage, hheader⟩ := h.store.some h.stands.upper.header
  exact gives_openTree hpage hheader h.stands.upper.accepted h.stands.root_valid

/-! ## One call -/

/-- What a call ends in: an answer of the map, and a tree for the map after the call. -/
def TreeCall.Meets (tree : BPlusTree) (s : Store) (levels : List (List Inner)) (leaves : List Leaf) (map : KeyMap) (c : TreeCall)
    (answer : TreeAnswer) (tree' : BPlusTree) (m' : Memory PageId Payload) : Prop :=
  map.Answers c (.ok answer) ∧ ∃ s' levels' leaves', Represents m' tree' s' levels' leaves' (map.after c) ∧
    Changed tree tree' s s' (ownIds tree levels leaves) (ownIds tree' levels' leaves')

theorem TreeCall.meets_of_does {α : Type} {x : TreeOp α} {answer : α → TreeAnswer} {c : TreeCall} {Q : α → BPlusTree → Store → Prop}
    (hmethod : c.method = do return answer (← x)) (hstore : Store.Of tree.config s m) (hx : x.Does tree s Q)
    (h : ∀ a tree' s' m', Store.Of tree'.config s' m' → Q a tree' s' → c.Meets tree s levels leaves map (answer a) tree' m') :
    c.method.Gives Database.blank tree m (c.Meets tree s levels leaves map) := by
  rw [hmethod]
  apply Method.gives_bind
  refine (hx m hstore).mono ?_
  rintro a tree' m' ⟨s', hstore', hQ⟩
  exact Method.gives_pure (h a tree' s' m' hstore' hQ)

theorem mem_insert_iff {before after : List Entry} {key : KeyType} {value : RecordId} {map : KeyMap} (habsent : map key = none)
    (h : ∀ k v, (k, v) ∈ before ++ after ↔ map k = some v) (k : KeyType) (v : RecordId) :
    (k, v) ∈ before ++ (key, value) :: after ↔ Function.update map key (some value) k = some v := by
  have hmiddle : (k, v) ∈ before ++ (key, value) :: after ↔ (k, v) = (key, value) ∨ (k, v) ∈ before ++ after := by
    simp only [List.mem_append, List.mem_cons]
    tauto
  rw [hmiddle, h]
  by_cases hk : k = key
  · subst hk
    rw [Function.update_self, habsent]
    simp [eq_comm]
  · rw [Function.update_of_ne hk]
    simp [hk]

theorem mem_remove_iff {before after : List Entry} {key : KeyType} {old : RecordId} {map : KeyMap}
    (hsorted : Sorted (before ++ (key, old) :: after))
    (h : ∀ k v, (k, v) ∈ before ++ (key, old) :: after ↔ map k = some v) (k : KeyType) (v : RecordId) :
    (k, v) ∈ before ++ after ↔ Function.update map key none k = some v := by
  have hmiddle : (k, v) ∈ before ++ (key, old) :: after ↔ (k, v) = (key, old) ∨ (k, v) ∈ before ++ after := by
    simp only [List.mem_append, List.mem_cons]
    tauto
  rw [Group.sorted_append] at hsorted
  by_cases hk : k = key
  · subst hk
    rw [Function.update_self]
    refine iff_of_false (fun hin => ?_) (by simp)
    rcases List.mem_append.mp hin with hin | hin
    · exact lt_irrefl k (hsorted.2.2 _ hin (k, old) List.mem_cons_self)
    · exact lt_irrefl k ((List.pairwise_cons.mp hsorted.2.1).1 _ hin)
  · rw [Function.update_of_ne hk, ← h, hmiddle]
    simp [hk]

theorem Represents.meets_insert (h : Represents m tree s levels leaves map) (key : KeyType) (value : RecordId) :
    (TreeCall.insert key value).method.Gives Database.blank tree m ((TreeCall.insert key value).Meets tree s levels leaves map) := by
  refine TreeCall.meets_of_does rfl h.store (h.stands.does_insertImpl key value) ?_
  rintro inserted tree' s' m' hstore (⟨rfl, rfl, rfl, old, hold⟩ | ⟨rfl, habsent, before, after, hsplit, levels', leaves', hstands, hentries, hchanged⟩)
  · have hfound := (h.entries key old).mp hold
    refine ⟨by simp [KeyMap.Answers, hfound], s', levels, leaves, ?_, changed_refl _ _ _⟩
    rw [KeyMap.after, if_neg (by simp [hfound])]
    exact ⟨hstore, h.stands, h.entries⟩
  · have hnone : map key = none := by
      cases hfound : map key with
      | none => rfl
      | some old => exact absurd ((h.entries key old).mpr hfound) (habsent old)
    refine ⟨by simp [KeyMap.Answers, hnone], s', levels', leaves', ?_, hchanged⟩
    rw [KeyMap.after, if_pos hnone]
    have hold := h.entries
    rw [hsplit] at hold
    refine ⟨hstore, hstands, fun k v => ?_⟩
    rw [hentries]
    exact mem_insert_iff hnone hold k v

theorem Represents.meets_remove (h : Represents m tree s levels leaves map) (key : KeyType) :
    (TreeCall.remove key).method.Gives Database.blank tree m ((TreeCall.remove key).Meets tree s levels leaves map) := by
  refine TreeCall.meets_of_does rfl h.store (h.stands.does_removeImpl key) ?_
  rintro removed tree' s' m' hstore (⟨rfl, rfl, rfl, habsent⟩ | ⟨rfl, before, old, after, hsplit, levels', leaves', hstands, hentries, hchanged⟩)
  · have hnone : map key = none := by
      cases hfound : map key with
      | none => rfl
      | some old => exact absurd ((h.entries key old).mpr hfound) (habsent old)
    refine ⟨by simp [KeyMap.Answers, hnone], s', levels, leaves, ?_, changed_refl _ _ _⟩
    have hsame : map.after (.remove key) = map := by
      rw [KeyMap.after, ← hnone, Function.update_eq_self]
    rw [hsame]
    exact ⟨hstore, h.stands, h.entries⟩
  · have hold := h.entries
    have hsorted := h.stands.entries
    rw [hsplit] at hold hsorted
    have hfound : map key = some old := (hold key old).mp (by simp)
    refine ⟨by simp [KeyMap.Answers, hfound], s', levels', leaves', ⟨hstore, hstands, fun k v => ?_⟩, hchanged⟩
    rw [hentries]
    exact mem_remove_iff hsorted hold k v

theorem Represents.meets_getValue (h : Represents m tree s levels leaves map) (key : KeyType) :
    (TreeCall.getValue key).method.Gives Database.blank tree m ((TreeCall.getValue key).Meets tree s levels leaves map) := by
  refine TreeCall.meets_of_does (Q := fun found tree' s' => found = map key ∧ tree' = tree ∧ s' = s) rfl h.store
    (h.stands.does_getValue key fun found hfound => ⟨?_, rfl, rfl⟩) ?_
  · refine Option.ext fun value => ?_
    rw [hfound, h.entries]
  · rintro found tree' s' m' hstore ⟨rfl, rfl, rfl⟩
    exact ⟨rfl, s', levels, leaves, ⟨hstore, h.stands, h.entries⟩, changed_refl _ _ _⟩

theorem Represents.meets_scan (h : Represents m tree s levels leaves map) (low high : KeyType) :
    (TreeCall.scan low high).method.Gives Database.blank tree m ((TreeCall.scan low high).Meets tree s levels leaves map) := by
  refine TreeCall.meets_of_does (Q := fun rows tree' s' => rows = (leaves.flatMap Leaf.entries).filter (inRange low high) ∧
    tree' = tree ∧ s' = s) rfl h.store (h.stands.does_scan low high ⟨rfl, rfl, rfl⟩) ?_
  rintro rows tree' s' m' hstore ⟨rfl, rfl, rfl⟩
  refine ⟨⟨_, rfl, h.stands.entries.filter _, fun key value => ?_⟩, s', levels, leaves, ⟨hstore, h.stands, h.entries⟩,
    changed_refl _ _ _⟩
  rw [List.mem_filter, h.entries, inRange, decide_eq_true_eq]
  tauto

theorem Represents.meets_reopen (h : Represents m tree s levels leaves map) :
    TreeCall.reopen.method.Gives Database.blank tree m (TreeCall.reopen.Meets tree s levels leaves map) := by
  have hreopen : BPlusTree.reopen.Gives Database.blank tree m fun _ tree' m' => tree' = tree ∧ m' = m := by
    apply Method.gives_bind
    apply Method.gives_get
    apply Method.gives_bind
    refine h.gives_open.mono ?_
    rintro tree' _ m' ⟨rfl, rfl, rfl⟩
    exact Method.gives_set ⟨rfl, rfl⟩
  apply Method.gives_bind
  refine hreopen.mono ?_
  rintro _ tree' m' ⟨rfl, rfl⟩
  exact Method.gives_pure ⟨rfl, s, levels, leaves, h, changed_refl _ _ _⟩

/-- Every call is a step of the map. -/
theorem Represents.meets (h : Represents m tree s levels leaves map) (c : TreeCall) :
    c.method.Gives Database.blank tree m (c.Meets tree s levels leaves map) := by
  cases c with
  | insert key value => exact h.meets_insert key value
  | remove key => exact h.meets_remove key
  | getValue key => exact h.meets_getValue key
  | scan low high => exact h.meets_scan low high
  | reopen => exact h.meets_reopen

/-! ## Whole runs -/

variable {db db₁ : Database} {client : Option TransactionId} {id : PageId}

/-- A run that goes smoothly is a run of the map, and leaves a tree. -/
theorem runs_of_smooth (state : TreeState) (hready : Database.Ready state.db)
    (h : Represents (Database.memory state.db) state.tree s levels leaves map) {calls : List (Option TransactionId × TreeCall)}
    (hsmooth : state.Smooth calls) :
    map.Runs (calls.map Prod.snd) (state.answers calls) ∧ Database.Ready (state.after calls).db ∧
      (state.after calls).tree.config = state.tree.config ∧
      ∃ s' levels' leaves' map', Represents (Database.memory (state.after calls).db) (state.after calls).tree s' levels' leaves' map' := by
  induction calls generalizing state s levels leaves map with
  | nil => exact ⟨trivial, hready, rfl, s, levels, leaves, map, h⟩
  | cons call rest ih =>
    obtain ⟨client, c⟩ := call
    obtain ⟨hfirst, hrest⟩ := hsmooth
    obtain ⟨⟨answer, hanswer, hcall, s₁, levels₁, leaves₁, hrep, hchanged⟩, hready⟩ :=
      (Database.pager_shows client).run_of_sat hready hfirst (h.meets c)
    obtain ⟨hruns, hafter, hconfig, hrep'⟩ := ih (state.call client c).2 hready hrep hrest
    refine ⟨⟨?_, hruns⟩, hafter, hconfig.trans hchanged.config, hrep'⟩
    have hsame : (state.call client c).1 = .ok answer := hanswer
    rw [hsame]
    exact hcall

/-! ## Creation -/

/-- The memory as a store of a tree that is not there yet. -/
def rawStore (m : Memory PageId Payload) : Store := fun id => (m id).map Cell.raw

theorem rawStore_of (config : BPlusTreeConfig) (m : Memory PageId Payload) : Store.Of config (rawStore m) m := by
  intro id
  rw [rawStore]
  cases m id with
  | none => exact .none
  | some page => exact .some rfl

/-- The store with a new tree in it. -/
def newStore (m : Memory PageId Payload) (metadata root : PageId) (config : BPlusTreeConfig) : Store :=
  ((rawStore m).writeHeader metadata root config).write root (Leaf.node ⟨root, 0, []⟩ .invalid .invalid)

theorem stands_new (haccepted : config.Accepted) (hne : metadata ≠ root) (hvalid : root.isValid = true) :
    Stands ⟨metadata, root, config⟩ (newStore m metadata root config) none [] [⟨root, 0, []⟩] := by
  have hroot : newStore m metadata root config root = some (.node (Leaf.node ⟨root, 0, []⟩ .invalid .invalid)) := Store.write_self _ _ _
  refine ⟨⟨haccepted, ?_, ⟨⟨0, rfl⟩, _, hroot, rfl⟩, by simp [innerIds], by simp [innerIds], trivial⟩, ⟨⟨_, hroot⟩, trivial⟩, ?_, ?_, ?_, ?_⟩
  · change newStore m metadata root config metadata = _
    rw [newStore, Store.write_of_ne hne, Store.writeHeader_self]
  · simpa using hvalid
  · simp [Sorted]
  · simp
  · simp

/-- The new object writes its root, and the same header once more or not. -/
theorem gives_finish {finish : TreeOp Unit} (haccepted : config.Accepted) (hne : metadata ≠ root)
    (hfinish : finish = pure () ∨ finish = BPlusTree.writeMetadata) (hstore : Store.Of config s m)
    (hheader : s metadata = some (.header root config)) (hroot : s root ≠ none) : Method.Gives Database.blank (do
      BPlusTree.writeNode root ⟨true, .invalid, .invalid, [], [], []⟩
      finish) (⟨metadata, root, config⟩ : BPlusTree) m fun _ _ m' =>
        Store.Of config (s.write root (Leaf.node ⟨root, 0, []⟩ .invalid .invalid)) m' := by
  have hdoes : TreeOp.Does (do
      BPlusTree.writeNode root ⟨true, .invalid, .invalid, [], [], []⟩
      finish) ⟨metadata, root, config⟩ s fun _ tree' s' => tree'.config = config ∧
        s' = s.write root (Leaf.node ⟨root, 0, []⟩ .invalid .invalid) := by
    apply does_bind
    refine does_writeNode haccepted hroot ⟨Nat.zero_le _, ⟨rfl, rfl⟩⟩ ?_
    rcases hfinish with rfl | rfl
    · exact does_pure ⟨rfl, rfl⟩
    · have hthere : s.write root ⟨true, .invalid, .invalid, [], [], []⟩ metadata = some (.header root config) :=
        (Store.write_of_ne hne _).trans hheader
      refine does_writeMetadata haccepted (by simp [hthere]) ⟨rfl, ?_⟩
      exact (congrArg (Function.update _ metadata) hthere.symm).trans (Function.update_eq_self _ _)
  refine (hdoes m hstore).mono ?_
  rintro _ tree' m' ⟨s', hstore', hconfig, rfl⟩
  exact hconfig ▸ hstore'

theorem gives_createWith {σ : Type} {o : σ} {finish : TreeOp Unit} (haccepted : config.Accepted)
    (hfinish : finish = pure () ∨ finish = BPlusTree.writeMetadata) :
    (BPlusTree.createWith finish config : Method PageId Payload Err σ PageId).Gives Database.blank o m fun id _ m' =>
      ∃ root, m id = none ∧ m root = none ∧ id ≠ root ∧ root.isValid = true ∧
        Represents m' ⟨id, root, config⟩ (newStore m id root config) [] [⟨root, 0, []⟩] fun _ => none := by
  rw [BPlusTree.createWith, if_neg]
  swap
  · have hleaf := haccepted.leaf
    have hinternal := haccepted.internal
    have hleafSize := haccepted.leafSize
    have hinternalSize := haccepted.internalSize
    omega
  apply Method.gives_bind
  refine Method.gives_allocate fun id hid hidValid => ?_
  apply Method.gives_bind
  refine Method.gives_allocate fun root hroot hvalid => ?_
  have hne : root ≠ id := fun heq => by simp [heq] at hroot
  rw [Function.update_of_ne hne] at hroot
  obtain ⟨page, hpage, hheader⟩ := headerPage_metadataPage haccepted root
  apply Method.gives_bind
  refine Method.gives_update (by rw [Function.update_of_ne hne.symm, Function.update_self]) hpage ?_
  apply Method.gives_bind
  refine (gives_openTree (Memory.put_some_self _ _ _) hheader haccepted hvalid).mono ?_
  rintro tree o' m' ⟨rfl, rfl, rfl⟩
  apply Method.gives_bind
  -- The store at this point has the header, and a page that is still blank for the root.
  have hstore : Store.Of config
      (Function.update (Function.update (Function.update (rawStore m) id (some (.raw .zero))) root (some (.raw .zero))) id
        (some (.header root config)))
      (Memory.put (Function.update (Function.update m id (some Database.blank.page)) root (some Database.blank.page)) id
        (some page)) :=
    (((rawStore_of config m).update (c := .raw .zero) rfl).update (c := .raw .zero) rfl).update hheader
  refine Method.gives_on ((gives_finish haccepted hne.symm hfinish hstore (Function.update_self _ _ _) ?_).mono ?_)
  · rw [Function.update_of_ne hne, Function.update_self]
    simp
  · rintro _ _ m' hstore'
    refine Method.gives_pure ⟨root, hid, hroot, hne.symm, hvalid, ?_, stands_new haccepted hne.symm hvalid, by simp⟩
    have hsame : newStore m id root config = Store.write (Function.update (Function.update (Function.update (rawStore m) id
        (some (.raw .zero))) root (some (.raw .zero))) id (some (.header root config))) root
        (Leaf.node ⟨root, 0, []⟩ .invalid .invalid) := by
      funext other
      simp only [newStore, Store.write, Store.writeHeader, Function.update_apply]
      split
      · rfl
      · split <;> rfl
    rw [hsame]
    exact hstore'

theorem gives_creation {σ : Type} {o : σ} (haccepted : config.Accepted) :
    (BPlusTree.creation client config : Method PageId Payload Err σ PageId).Gives Database.blank o m fun id _ m' =>
      ∃ root, m id = none ∧ m root = none ∧ id ≠ root ∧ root.isValid = true ∧
        Represents m' ⟨id, root, config⟩ (newStore m id root config) [] [⟨root, 0, []⟩] fun _ => none := by
  cases client with
  | none => exact gives_createWith haccepted (.inr rfl)
  | some t => exact gives_createWith haccepted (.inl rfl)

/-- Other capacities are refused. -/
theorem accepted_of_creation {id : PageId} (h : (((BPlusTree.creation client config).run ()).run (Database.pager client) db).1.1 = .ok id) :
    config.Accepted := by
  have hwith : ∃ finish, BPlusTree.creation (σ := Unit) client config = BPlusTree.createWith finish config := by
    cases client with
    | none => exact ⟨_, rfl⟩
    | some t => exact ⟨_, rfl⟩
  obtain ⟨finish, hfinish⟩ := hwith
  rw [hfinish, BPlusTree.createWith] at h
  split at h
  · cases h
  · rename_i hsizes
    constructor <;> omega

/-- What is left by a creation that returned, with or without the flush at its end. -/
theorem created_of_createFor (h : BPlusTree.createFor client config db = (.ok id, db₁)) :
    ∃ db', ((BPlusTree.creation client config).run ()).run (Database.pager client) db = ((.ok id, ()), db') ∧
      (db₁ = db' ∨ db₁ = ((Database.onCache Cache.flushAllPages).run db').2) := by
  unfold BPlusTree.createFor at h
  obtain ⟨⟨⟨outcome, _⟩, db'⟩, hresult⟩ :
    ∃ result, result = ((BPlusTree.creation client config).run ()).run (Database.pager client) db := ⟨_, rfl⟩
  rw [← hresult] at h ⊢
  cases client with
  | some t =>
    obtain ⟨rfl, rfl⟩ := Prod.mk.inj h
    exact ⟨_, rfl, .inl rfl⟩
  | none =>
    cases outcome with
    | error e => cases h
    | ok created =>
      obtain ⟨hid, rfl⟩ := Prod.mk.inj h
      cases hflushed : ((Database.onCache Cache.flushAllPages).run db').1 with
      | error e => rw [hflushed] at hid; cases hid
      | ok u =>
        rw [hflushed] at hid
        obtain rfl := Except.ok.inj hid
        exact ⟨db', rfl, .inr rfl⟩

/-- A tree that has been created can be opened, and is then in order and empty. -/
theorem represents_created {client opener : Option TransactionId} (hready : Database.Ready db)
    (hsmooth : ((BPlusTree.creation client config).run ()).Smooth (Database.pager client) db)
    (hcreate : BPlusTree.createFor client config db = (.ok id, db₁))
    (hopen : ((BPlusTree.openTree id).run ()).Smooth (Database.pager opener) db₁) :
    ∃ tree db₂, ((BPlusTree.openTree id).run ()).run (Database.pager opener) db₁ = ((.ok tree, ()), db₂) ∧
      Database.Ready db₂ ∧ tree.config = config ∧ ∃ s leaves, Represents (Database.memory db₂) tree s [] leaves fun _ => none := by
  obtain ⟨db', hcreated, hdb₁⟩ := created_of_createFor hcreate
  have haccepted : config.Accepted := accepted_of_creation (congrArg (fun result => result.1.1) hcreated)
  obtain ⟨⟨created, hok, root, -, -, -, -, hrep⟩, hready⟩ := (Database.pager_shows client).run_of_sat hready hsmooth
    (gives_creation haccepted)
  rw [hcreated] at hok hrep hready
  obtain rfl := Except.ok.inj hok
  obtain ⟨hmemory, hready⟩ : Database.memory db₁ = Database.memory db' ∧ Database.Ready db₁ := by
    rcases hdb₁ with rfl | rfl
    · exact ⟨rfl, hready⟩
    · exact Database.memory_onCache hready Cache.calm_flushAllPages
  rw [← hmemory] at hrep
  obtain ⟨⟨tree, htree, rfl, -, hsame⟩, hready⟩ := (Database.pager_shows opener).run_of_sat hready hopen hrep.gives_open
  exact ⟨_, _, Prod.ext (Prod.ext htree rfl) rfl, hready, rfl, _, _, hsame ▸ hrep⟩

/-- **Refinement.** A tree that has been created and opened answers every list of calls as a map that starts empty. -/
theorem tree_refines_map {client opener : Option TransactionId} (hready : Database.Ready db)
    (hsmooth : ((BPlusTree.creation client config).run ()).Smooth (Database.pager client) db)
    (hcreate : BPlusTree.createFor client config db = (.ok id, db₁))
    (hopen : ((BPlusTree.openTree id).run ()).Smooth (Database.pager opener) db₁) :
    ∃ tree db₂, ((BPlusTree.openTree id).run ()).run (Database.pager opener) db₁ = ((.ok tree, ()), db₂) ∧
      ∀ calls, TreeState.Smooth ⟨db₂, tree⟩ calls →
        KeyMap.Runs (fun _ => none) (calls.map Prod.snd) (TreeState.answers ⟨db₂, tree⟩ calls) := by
  obtain ⟨tree, db₂, hrun, hready, -, s, leaves, hrep⟩ := represents_created hready hsmooth hcreate hopen
  refine ⟨tree, db₂, hrun, fun calls hcalls => ?_⟩
  exact (runs_of_smooth ⟨db₂, tree⟩ hready hrep hcalls).1

/-- A database on new files in which one transaction has begun. -/
def directoryDb : Database := (exec System.step (System.new 8) [.begin]).db

/-- The least capacities there can be. -/
def directoryConfig : BPlusTreeConfig := ⟨2, 2⟩

/-- The third insertion splits the root, the removal takes it back. -/
def directoryCalls : List (Option TransactionId × TreeCall) :=
  [(some 1, .insert 5 ⟨.ofIndex 9, 0⟩), (none, .insert 3 ⟨.ofIndex 9, 1⟩), (some 1, .insert 8 ⟨.ofIndex 9, 2⟩), (none, .reopen),
    (none, .getValue 8), (some 1, .remove 3), (none, .scan 0 9)]

/-- The database after the creation, and whether its tree opens and takes the calls without a failure. -/
def directorySmooth (created : Except Err PageId × Database) : Bool :=
  match created with
  | (.ok id, db₁) =>
    decide (((BPlusTree.openTree id).run ()).Smooth (Database.pager none) db₁) &&
      match ((BPlusTree.openTree id).run ()).run (Database.pager none) db₁ with
      | ((.ok tree, _), db₂) => decide (TreeState.Smooth ⟨db₂, tree⟩ directoryCalls)
      | _ => false
  | _ => false

theorem directory_created : ((BPlusTree.creation (some 1) directoryConfig).run ()).Smooth (Database.pager (some 1)) directoryDb := by
  decide +kernel

theorem directory_smooth : ∃ id db₁, BPlusTree.createFor (some 1) directoryConfig directoryDb = (.ok id, db₁) ∧
    ((BPlusTree.openTree id).run ()).Smooth (Database.pager none) db₁ ∧
    ∀ tree db₂, ((BPlusTree.openTree id).run ()).run (Database.pager none) db₁ = ((.ok tree, ()), db₂) →
      TreeState.Smooth ⟨db₂, tree⟩ directoryCalls := by
  have hsmooth : directorySmooth (BPlusTree.createFor (some 1) directoryConfig directoryDb) = true := by decide +kernel
  obtain ⟨⟨outcome, db₁⟩, hcreate⟩ : ∃ result, result = BPlusTree.createFor (some 1) directoryConfig directoryDb := ⟨_, rfl⟩
  rw [← hcreate] at hsmooth ⊢
  cases outcome with
  | error e => cases hsmooth
  | ok id =>
    obtain ⟨hopen, hcalls⟩ := Bool.and_eq_true_iff.mp hsmooth
    refine ⟨id, db₁, rfl, of_decide_eq_true hopen, fun tree db₂ hrun => ?_⟩
    rw [hrun] at hcalls
    exact of_decide_eq_true hcalls

theorem directory_refines : ∃ tree db₂, TreeState.Smooth ⟨db₂, tree⟩ directoryCalls ∧
    KeyMap.Runs (fun _ => none) (directoryCalls.map Prod.snd) (TreeState.answers ⟨db₂, tree⟩ directoryCalls) := by
  obtain ⟨id, db₁, hcreate, hopen, hcalls⟩ := directory_smooth
  obtain ⟨tree, db₂, hrun, hall⟩ := tree_refines_map (Database.ready_exec (System.launch_new 8).working [.begin])
    directory_created hcreate hopen
  exact ⟨tree, db₂, hcalls tree db₂ hrun, hall directoryCalls (hcalls tree db₂ hrun)⟩

end Ddb.Index
