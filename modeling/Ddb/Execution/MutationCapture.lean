import Ddb.Execution.TableHeap
import Ddb.Index.ReadOnly
import Ddb.Lib.Run
import Ddb.Storage.MutationContext

/-!
# Heaps and trees under one mutation context

Any number of heaps and trees on one pool, called one after the other, with one mutation context behind every call. What
the context has captured when it is drained takes all their pages back to the start, and forward again.
-/

namespace Ddb.Execution

open Ddb.Lib Ddb.Storage Ddb.Buffer Ddb.Index

/-! ## Calls that change nothing -/

theorem TableHeap.idle_eraseImpl (r : RecordId) : (TableHeap.eraseImpl r).IdleIf (· = false) := by
  refine Method.idleIf_access (Method.idleIf_pure _) fun page => ?_
  dsimp only
  by_cases hslot : hasSlot page r.slotId = true
  swap
  · exact .inr ⟨by rw [eraseSlot, if_neg hslot], by rw [if_neg hslot]; exact Method.idleIf_pure _⟩
  rw [if_pos hslot]
  cases hread : readSlot page r.slotId.toNat with
  | none => exact .inl (Method.avoids_throw _)
  | some slot =>
    -- The flag that decides whether the page is written is the one that is answered.
    by_cases hlive : slot.live = 0
    · exact .inr ⟨by rw [eraseSlot, if_pos hslot, hread]; exact if_pos hlive, Method.idleIf_pure _⟩
    · exact .inl (Method.avoids_pure (by simpa using hlive))

theorem TableHeap.idle_insertImpl (tuple : Tuple) : (TableHeap.insertImpl tuple).IdleIf (· = none) := by
  refine Method.reads_get.idleIf fun heap => ?_
  split
  · exact (Method.avoids_throw _).idleIf
  · split
    · exact Method.idleIf_pure _
    · -- From here on a record is returned, or nothing is.
      refine Method.Avoids.idleIf (Method.avoids_bind fun last => ?_)
      split
      · exact (Method.avoids_pure nofun).ite (Method.avoids_throw _)
      · exact Method.avoids_bind fun id => Method.avoids_bind fun page => Method.avoids_pure nofun

end Ddb.Execution

namespace Ddb.Index.BPlusTree

open Ddb.Lib Ddb.Storage

theorem idle_insertImpl (key : KeyType) (value : RecordId) : (insertImpl key value).IdleIf (· = false) := by
  refine (reads_findLeaf key).idleIf fun id => (reads_readNode id).idleIf fun leaf => ?_
  dsimp only
  split
  · exact Method.idleIf_pure _
  · refine Method.Avoids.idleIf (Method.avoids_bind fun keys => Method.avoids_bind fun values => Method.avoids_bind fun tree => ?_)
    split
    · refine Method.avoids_bind fun _ => ?_
      split
      · exact Method.avoids_bind fun _ => Method.avoids_pure nofun
      · exact Method.avoids_pure nofun
    · exact Method.avoids_bind fun _ => Method.avoids_bind fun _ => Method.avoids_bind fun _ => Method.avoids_bind fun _ =>
        Method.avoids_pure nofun

theorem idle_removeImpl (key : KeyType) : (removeImpl key).IdleIf (· = false) := by
  refine (reads_findLeaf key).idleIf fun id => (reads_readNode id).idleIf fun leaf => ?_
  dsimp only
  split
  · refine Method.Avoids.idleIf (Method.avoids_bind fun keys => Method.avoids_bind fun values => Method.avoids_bind fun tree =>
      Method.avoids_bind fun _ => ?_)
    refine (Method.avoids_pure nofun).ite (Method.Avoids.ite ?_ (Method.avoids_bind fun _ => Method.avoids_pure nofun))
    split
    · exact Method.avoids_bind fun _ => Method.avoids_bind fun _ => Method.avoids_pure nofun
    · exact Method.avoids_pure nofun
  · exact Method.idleIf_pure _

end Ddb.Index.BPlusTree

namespace Ddb.Execution

open Ddb.Lib Ddb.Storage Ddb.Buffer Ddb.Index

/-! ## Calls under one context -/

/-- A mutation context, and the objects that have been opened on its pool. -/
structure Workbench where
  capture : Capture
  heaps : List TableHeap
  trees : List BPlusTree

/-- A call; an object is given by its place. -/
inductive BenchCall where
  | createHeap (schema : Schema)
  | openHeap (metadata : PageId) (schema : Schema)
  | insertTuple (heap : Nat) (tuple : Tuple)
  | eraseRecord (heap : Nat) (r : RecordId)
  | openTree (metadata : PageId)
  | insertKey (tree : Nat) (key : KeyType) (value : RecordId)
  | removeKey (tree : Nat) (key : KeyType)

inductive BenchAnswer where
  | created (metadata : PageId)
  | opened
  | inserted (r : Option RecordId)
  | done (changed : Bool)
  deriving DecidableEq

/-- The answers of calls that change nothing: a tuple too large, a duplicate key, an absent key or record. -/
def BenchAnswer.Vacuous : BenchAnswer → Prop
  | .inserted r => r = none
  | .done changed => changed = false
  | _ => False

namespace Workbench

/-- A method of an object, under the context. -/
def perform {σ α : Type} (w : Workbench) (x : Method PageId Payload Err σ α) (object : σ) : (Except Err α × σ) × Capture :=
  (x.run object).run Capture.pager w.capture

/-- A method of the heap at a place. -/
def onHeap {α : Type} (w : Workbench) (i : Nat) (x : HeapOp α) (answer : α → BenchAnswer) :
    Option (Except Err BenchAnswer) × Workbench :=
  match w.heaps[i]? with
  | none => (none, w)
  | some heap =>
    let result := w.perform x heap
    (some (result.1.1.map answer), { w with capture := result.2, heaps := w.heaps.set i result.1.2 })

/-- A method of the tree at a place. -/
def onTree {α : Type} (w : Workbench) (i : Nat) (x : TreeOp α) (answer : α → BenchAnswer) :
    Option (Except Err BenchAnswer) × Workbench :=
  match w.trees[i]? with
  | none => (none, w)
  | some tree =>
    let result := w.perform x tree
    (some (result.1.1.map answer), { w with capture := result.2, trees := w.trees.set i result.1.2 })

/-- One call, and its answer if the object is there. -/
def call (w : Workbench) : BenchCall → Option (Except Err BenchAnswer) × Workbench
  | .createHeap schema =>
    let result := w.perform (TableHeap.create schema) ()
    (some (result.1.1.map .created), { w with capture := result.2 })
  | .openHeap metadata schema =>
    let result := w.perform (TableHeap.openHeap metadata schema) ()
    (some (result.1.1.map fun _ => .opened), { w with capture := result.2, heaps := w.heaps ++ result.1.1.toOption.toList })
  | .insertTuple heap tuple => w.onHeap heap (TableHeap.insertImpl tuple) .inserted
  | .eraseRecord heap r => w.onHeap heap (TableHeap.eraseImpl r) .done
  | .openTree metadata =>
    let result := w.perform (BPlusTree.openTree metadata) ()
    (some (result.1.1.map fun _ => .opened), { w with capture := result.2, trees := w.trees ++ result.1.1.toOption.toList })
  | .insertKey tree key value => w.onTree tree (BPlusTree.insertImpl key value) .done
  | .removeKey tree key => w.onTree tree (BPlusTree.removeImpl key) .done

def step (w : Workbench) (c : BenchCall) : Workbench := (w.call c).2

variable {w : Workbench} {c : BenchCall} {start : PageId → Payload}

/-- A call does to the context what some program does. -/
theorem capture_step (w : Workbench) (c : BenchCall) :
    ∃ (α : Type) (prog : PageProg PageId Payload Err α), (w.step c).capture = (prog.run Capture.pager w.capture).2 := by
  have hheap : ∀ {α : Type} (i : Nat) (x : HeapOp α) (answer : α → BenchAnswer), ∃ (β : Type) (prog : PageProg PageId Payload Err β),
      (w.onHeap i x answer).2.capture = (prog.run Capture.pager w.capture).2 := by
    intro α i x answer
    unfold onHeap
    split
    · exact ⟨Unit, .done (), rfl⟩
    · exact ⟨_, x.run _, rfl⟩
  have htree : ∀ {α : Type} (i : Nat) (x : TreeOp α) (answer : α → BenchAnswer), ∃ (β : Type) (prog : PageProg PageId Payload Err β),
      (w.onTree i x answer).2.capture = (prog.run Capture.pager w.capture).2 := by
    intro α i x answer
    unfold onTree
    split
    · exact ⟨Unit, .done (), rfl⟩
    · exact ⟨_, x.run _, rfl⟩
  cases c with
  | createHeap schema => exact ⟨_, (TableHeap.create schema).run (), rfl⟩
  | openHeap metadata schema => exact ⟨_, (TableHeap.openHeap metadata schema).run (), rfl⟩
  | insertTuple heap tuple | eraseRecord heap r => exact hheap heap _ _
  | openTree metadata => exact ⟨_, (BPlusTree.openTree metadata).run (), rfl⟩
  | insertKey tree key value | removeKey tree key => exact htree tree _ _

theorem faithful_step (h : Capture.Faithful start w.capture) (c : BenchCall) : Capture.Faithful start (w.step c).capture := by
  obtain ⟨α, prog, hrun⟩ := capture_step w c
  rw [hrun]
  exact h.run prog

theorem alone_step (hfaithful : Capture.Faithful start w.capture) (h : Capture.Alone w.capture.cache) (c : BenchCall) :
    Capture.Alone (w.step c).capture.cache := by
  obtain ⟨α, prog, hrun⟩ := capture_step w c
  rw [hrun]
  exact h.run hfaithful prog

/-- A vacuous answer of a method that is idle with respect to it. -/
theorem idle_perform {σ α : Type} (h : Capture.Faithful start w.capture) {x : Method PageId Payload Err σ α} {object : σ}
    {P : α → Prop} (hidle : x.IdleIf P) {answer : α → BenchAnswer} {a : BenchAnswer}
    (hanswer : (w.perform x object).1.1.map answer = .ok a) (hvacuous : ∀ b, answer b = a → P b) :
    (w.perform x object).2.mutations = w.capture.mutations := by
  refine h.idle (hidle object) ?_
  cases hresult : ((x.run object).run Capture.pager w.capture).1.1 with
  | error e =>
    rw [perform, hresult] at hanswer
    cases hanswer
  | ok b =>
    rw [perform, hresult] at hanswer
    exact ⟨b, hresult, hvacuous b (Except.ok.inj hanswer)⟩

theorem idle_step (h : Capture.Faithful start w.capture) {a : BenchAnswer} (hanswer : (w.call c).1 = some (.ok a))
    (hvacuous : a.Vacuous) : (w.step c).capture.mutations = w.capture.mutations := by
  have hheap : ∀ {α : Type} {i : Nat} {x : HeapOp α} {answer : α → BenchAnswer} {P : α → Prop}, x.IdleIf P →
      (∀ b, answer b = a → P b) → (w.onHeap i x answer).1 = some (.ok a) →
      (w.onHeap i x answer).2.capture.mutations = w.capture.mutations := by
    intro α i x answer P hidle hP hanswer
    unfold onHeap at hanswer ⊢
    split at hanswer
    · cases hanswer
    · exact idle_perform h hidle (Option.some.inj hanswer) hP
  have htree : ∀ {α : Type} {i : Nat} {x : TreeOp α} {answer : α → BenchAnswer} {P : α → Prop}, x.IdleIf P →
      (∀ b, answer b = a → P b) → (w.onTree i x answer).1 = some (.ok a) →
      (w.onTree i x answer).2.capture.mutations = w.capture.mutations := by
    intro α i x answer P hidle hP hanswer
    unfold onTree at hanswer ⊢
    split at hanswer
    · cases hanswer
    · exact idle_perform h hidle (Option.some.inj hanswer) hP
  have hnever : ∀ {α : Type} {outcome : Except Err α} {answer : α → BenchAnswer}, (∀ b, ¬ (answer b).Vacuous) →
      outcome.map answer = .ok a → False := by
    intro α outcome answer hnot hmap
    cases outcome with
    | error e => cases hmap
    | ok b => exact hnot b (Except.ok.inj hmap ▸ hvacuous)
  cases c with
  | createHeap schema | openHeap metadata schema => exact (hnever (fun _ => id) (Option.some.inj hanswer)).elim
  | insertTuple heap tuple => exact hheap (TableHeap.idle_insertImpl tuple) (fun b hb => by subst hb; exact hvacuous) hanswer
  | eraseRecord heap r => exact hheap (TableHeap.idle_eraseImpl r) (fun b hb => by subst hb; exact hvacuous) hanswer
  | openTree metadata => exact (hnever (fun _ => id) (Option.some.inj hanswer)).elim
  | insertKey tree key value =>
    exact htree (BPlusTree.idle_insertImpl key value) (fun b hb => by subst hb; exact hvacuous) hanswer
  | removeKey tree key => exact htree (BPlusTree.idle_removeImpl key) (fun b hb => by subst hb; exact hvacuous) hanswer

/-! ## Whole runs -/

/-- The context and the objects before the first call. -/
def begin (c : Cache) (heaps : List TableHeap) (trees : List BPlusTree) : Workbench := ⟨.new c, heaps, trees⟩

variable {c₀ : Cache} {heaps : List TableHeap} {trees : List BPlusTree}

theorem faithful_exec (hinv : c₀.Inv none) (hclean : ∀ id, c₀.Clean id) (calls : List BenchCall) :
    Capture.Faithful (Capture.contents c₀) (exec step (begin c₀ heaps trees) calls).capture :=
  exec_keeps (P := fun w : Workbench => Capture.Faithful (Capture.contents c₀) w.capture) (fun _ c h => faithful_step h c)
    (Capture.faithful_new hinv hclean)

theorem alone_exec (hinv : c₀.Inv none) (hclean : ∀ id, c₀.Clean id) (halone : Capture.Alone c₀) (calls : List BenchCall) :
    Capture.Alone (exec step (begin c₀ heaps trees) calls).capture.cache := by
  have hkeeps : Capture.Faithful (Capture.contents c₀) (exec step (begin c₀ heaps trees) calls).capture ∧
      Capture.Alone (exec step (begin c₀ heaps trees) calls).capture.cache :=
    exec_keeps (P := fun w : Workbench => Capture.Faithful (Capture.contents c₀) w.capture ∧ Capture.Alone w.capture.cache)
      (fun _ c h => ⟨faithful_step h.1 c, alone_step h.1 h.2 c⟩) ⟨Capture.faithful_new hinv hclean, halone⟩
  exact hkeeps.2

/-- **Capture is complete and reversible.** The drained mutations are numbered from zero. Their before images, last first,
take every page back to what it held at the start, a new page to zero; their after images then lead to what every page holds
after the calls. On a pool without other clients and a file that works all images can be applied. Calls that change nothing
add no mutation. -/
theorem capture_reversible (hinv : c₀.Inv none) (hclean : ∀ id, c₀.Clean id) (calls : List BenchCall) :
    ∃ mutations k, Capture.drainCaptured.run (exec step (begin c₀ heaps trees) calls).capture = (.ok mutations, k) ∧
      mutations.map PhysicalMutation.sequence = (List.range mutations.length).map UInt64.ofNat ∧
      (∀ c₁, (mutations.reverse.forM applyBeforeImage).run (exec step (begin c₀ heaps trees) calls).capture.cache = (.ok (), c₁) →
        Capture.contents c₁ = Capture.contents c₀ ∧
        ∀ c₂, (mutations.forM applyAfterImage).run c₁ = (.ok (), c₂) →
          Capture.contents c₂ = Capture.contents (exec step (begin c₀ heaps trees) calls).capture.cache) ∧
      (Capture.Alone c₀ → ∃ c₁ c₂,
        (mutations.reverse.forM applyBeforeImage).run (exec step (begin c₀ heaps trees) calls).capture.cache = (.ok (), c₁) ∧
        (mutations.forM applyAfterImage).run c₁ = (.ok (), c₂)) ∧
      ∀ done call rest, calls = done ++ call :: rest → ∀ a : BenchAnswer,
        ((exec step (begin c₀ heaps trees) done).call call).1 = some (.ok a) → a.Vacuous →
        (exec step (begin c₀ heaps trees) (done ++ [call])).capture.mutations =
          (exec step (begin c₀ heaps trees) done).capture.mutations := by
  have hfaithful := @faithful_exec c₀ heaps trees hinv hclean
  obtain ⟨k, hk⟩ : ∃ k, k = (exec step (begin c₀ heaps trees) calls).capture := ⟨_, rfl⟩
  have h : Capture.Faithful (Capture.contents c₀) k := hk ▸ hfaithful calls
  rw [← hk]
  refine ⟨k.mutations, _, h.drain, h.sequences, fun c₁ hundo => ?_, fun halone => ?_, ?_⟩
  · obtain ⟨hcontents, hinv₁, hclean₁⟩ := Capture.contents_applied h.inv h.clean hundo
    have hback : Capture.contents c₁ = Capture.contents c₀ := by
      rw [hcontents, ← h.lead.foldl_undo, ← List.map_reverse, List.foldl_map]
      rfl
    refine ⟨hback, fun c₂ hredo => ?_⟩
    rw [(Capture.contents_applied hinv₁ hclean₁ hredo).1, hback, ← h.lead.foldl_redo, List.foldl_map]
    rfl
  · have halone' : Capture.Alone k.cache := hk ▸ alone_exec hinv hclean halone calls
    obtain ⟨c₁, hundo, halone₁, hsame⟩ := halone'.applied PhysicalMutation.beforeImage
      fun mutation hmem => h.allocated mutation (List.mem_reverse.mp hmem)
    obtain ⟨c₂, hredo, -, -⟩ := halone₁.applied PhysicalMutation.afterImage
      fun mutation hmem => (hsame _).trans (h.allocated mutation hmem)
    exact ⟨c₁, c₂, hundo, hredo⟩
  · rintro done call rest - a hanswer hvacuous
    rw [exec_append]
    exact idle_step (hfaithful done) hanswer hvacuous

/-- A new file under a pool of four frames, without a log. -/
def emptyCache : Cache := ⟨.empty, .create 4, none, []⟩

theorem alone_emptyCache : Capture.Alone emptyCache := by
  refine ⟨⟨⟨PageManager.wellFormed_empty, BufferPool.inv_create 4, nofun⟩, PageManager.synced_empty, fun _ => rfl, fun _ _ => nofun,
    fun _ => rfl, by decide, ?_⟩, ?_⟩
  · rintro id page ⟨f, hf, -⟩
    cases hf
  · intro id page hview
    cases (PageManager.slot_eq_some hview).1

/-- A table, a record in it, and the record erased twice. -/
def tableCalls : List BenchCall :=
  [.createHeap ⟨[⟨"id", .int64⟩]⟩, .openHeap (.ofIndex 0) ⟨[⟨"id", .int64⟩]⟩, .insertTuple 0 ⟨[.int64 7]⟩,
    .eraseRecord 0 ⟨.ofIndex 1, 0⟩, .eraseRecord 0 ⟨.ofIndex 1, 0⟩]

/-- The metadata page, the new data page, the metadata again, the slot and its live flag. -/
theorem tableCalls_reversible : ∃ mutations k c₁ c₂,
    Capture.drainCaptured.run (exec step (begin emptyCache [] []) tableCalls).capture = (.ok mutations, k) ∧
      mutations.map PhysicalMutation.pageId = [.ofIndex 0, .ofIndex 1, .ofIndex 0, .ofIndex 1, .ofIndex 1] ∧
      mutations.map PhysicalMutation.sequence = [0, 1, 2, 3, 4] ∧
      (mutations.reverse.forM applyBeforeImage).run (exec step (begin emptyCache [] []) tableCalls).capture.cache = (.ok (), c₁) ∧
      Capture.contents c₁ = Capture.contents emptyCache ∧ (mutations.forM applyAfterImage).run c₁ = (.ok (), c₂) ∧
      Capture.contents c₂ = Capture.contents (exec step (begin emptyCache [] []) tableCalls).capture.cache := by
  obtain ⟨mutations, k, hdrain, -, himages, hreturns, -⟩ := @capture_reversible emptyCache [] [] alone_emptyCache.solo.inv
    alone_emptyCache.solo.clean tableCalls
  obtain ⟨c₁, c₂, hundo, hredo⟩ := hreturns alone_emptyCache
  obtain ⟨hback, hforth⟩ := himages c₁ hundo
  have hvalues : (Capture.drainCaptured.run (exec step (begin emptyCache [] []) tableCalls).capture).1.toOption.map
      (fun mutations => (mutations.map PhysicalMutation.pageId, mutations.map PhysicalMutation.sequence)) =
        some ([.ofIndex 0, .ofIndex 1, .ofIndex 0, .ofIndex 1, .ofIndex 1], [0, 1, 2, 3, 4]) := by
    decide +kernel
  rw [hdrain] at hvalues
  obtain ⟨hpages, hsequences⟩ := Prod.mk.inj (Option.some.inj hvalues)
  exact ⟨mutations, k, c₁, c₂, hdrain, hpages, hsequences, hundo, hback, hredo, hforth c₂ hredo⟩

end Workbench

end Ddb.Execution
