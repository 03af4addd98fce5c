import Mathlib.Data.List.Infix
import Mathlib.Logic.Relation

/-!
# Runs of a deterministic machine

A machine is a step function: a state and a step give the next state. What a component promises "in every reachable
state" is then a statement about all lists of steps, and it is proved in one way throughout: an invariant holds at the
start and no step that meets its condition breaks it. Where the condition is also forced by the invariant, the runs on
which the promise is kept are exactly those whose steps all meet the condition.
-/

namespace Ddb.Lib

variable {σ α : Type*}

/-- The state after a list of steps. -/
def exec (step : σ → α → σ) : σ → List α → σ
  | s, [] => s
  | s, a :: rest => exec step (step s a) rest

/-- `P` holds in every state of the run, the first and the last included. -/
def Always (step : σ → α → σ) (P : σ → Prop) : σ → List α → Prop
  | s, [] => P s
  | s, a :: rest => P s ∧ Always step P (step s a) rest

/-- Every step of the run meets `C` in the state it is taken from. -/
def EachStep (step : σ → α → σ) (C : σ → α → Prop) : σ → List α → Prop
  | _, [] => True
  | s, a :: rest => C s a ∧ EachStep step C (step s a) rest

instance EachStep.decidable (step : σ → α → σ) (C : σ → α → Prop) [∀ s a, Decidable (C s a)] :
    (s : σ) → (run : List α) → Decidable (EachStep step C s run)
  | _, [] => .isTrue trivial
  | s, a :: rest => @instDecidableAnd _ _ _ (EachStep.decidable step C (step s a) rest)

variable {step : σ → α → σ} {P Q : σ → Prop} {C : σ → α → Prop} {s : σ} {run : List α}

@[simp] theorem exec_nil : exec step s [] = s := rfl

@[simp] theorem exec_cons (a : α) : exec step s (a :: run) = exec step (step s a) run := rfl

theorem exec_append (first second : List α) :
    exec step s (first ++ second) = exec step (exec step s first) second := by
  induction first generalizing s with
  | nil => rfl
  | cons a rest ih => exact ih

/-- A run keeps `P` exactly when `P` holds after each of its prefixes. -/
theorem always_iff_forall : Always step P s run ↔ ∀ done, done <+: run → P (exec step s done) := by
  induction run generalizing s with
  | nil =>
    constructor
    · intro h done hdone
      rw [List.prefix_nil.mp hdone]
      exact h
    · intro h
      exact h [] List.nil_prefix
  | cons a rest ih =>
    constructor
    · rintro ⟨hs, hrest⟩ done hdone
      cases done with
      | nil => exact hs
      | cons b done =>
        obtain ⟨rfl, htail⟩ := List.cons_prefix_cons.mp hdone
        exact ih.mp hrest done htail
    · intro h
      refine ⟨h [] List.nil_prefix, ih.mpr fun done hdone => ?_⟩
      exact h (a :: done) (List.cons_prefix_cons.mpr ⟨rfl, hdone⟩)

theorem Always.last (h : Always step P s run) : P (exec step s run) :=
  always_iff_forall.mp h run List.prefix_rfl

theorem Always.mono (hPQ : ∀ s, P s → Q s) (h : Always step P s run) : Always step Q s run :=
  always_iff_forall.mpr fun done hdone => hPQ _ (always_iff_forall.mp h done hdone)

/-- The invariant rule: a step that meets its condition keeps the invariant, so every run of such steps does. -/
theorem always_of_eachStep (hkeep : ∀ s a, P s → C s a → P (step s a)) (hs : P s)
    (hrun : EachStep step C s run) : Always step P s run := by
  induction run generalizing s with
  | nil => exact hs
  | cons a rest ih => exact ⟨hs, ih (hkeep s a hs hrun.1) hrun.2⟩

/-- What every step keeps, a run keeps. -/
theorem exec_keeps (hkeep : ∀ s a, P s → P (step s a)) (hs : P s) : P (exec step s run) := by
  induction run generalizing s with
  | nil => exact hs
  | cons a rest ih => exact ih (hkeep s a hs)

theorem EachStep.and {D : σ → α → Prop} (h : EachStep step C s run) (h' : EachStep step D s run) :
    EachStep step (fun s a => C s a ∧ D s a) s run := by
  induction run generalizing s with
  | nil => trivial
  | cons a rest ih => exact ⟨⟨h.1, h'.1⟩, ih h.2 h'.2⟩

/-- A condition that implies another wherever an invariant holds. -/
theorem EachStep.of_keeps {D : σ → α → Prop} (hkeep : ∀ s a, P s → P (step s a)) (himp : ∀ s a, P s → D s a → C s a)
    (hs : P s) (h : EachStep step D s run) : EachStep step C s run := by
  induction run generalizing s with
  | nil => trivial
  | cons a rest ih => exact ⟨himp s a hs h.1, ih (hkeep s a hs) h.2⟩

/-- A step of the run meets its condition in the state the steps before it lead to. -/
theorem EachStep.at_split {done rest : List α} {a : α} (h : EachStep step C s (done ++ a :: rest)) :
    C (exec step s done) a := by
  induction done generalizing s with
  | nil => exact h.1
  | cons b done ih => exact ih h.2

/-- The exact form of the rule: when a step that breaks its condition also breaks the invariant, the two agree. -/
theorem always_iff_eachStep (hkeep : ∀ s a, P s → (P (step s a) ↔ C s a)) (hs : P s) :
    Always step P s run ↔ EachStep step C s run := by
  induction run generalizing s with
  | nil => exact ⟨fun _ => trivial, fun _ => hs⟩
  | cons a rest ih =>
    constructor
    · rintro ⟨-, hrest⟩
      have hnext : P (step s a) := always_iff_forall.mp hrest [] List.nil_prefix
      exact ⟨(hkeep s a hs).mp hnext, (ih hnext).mp hrest⟩
    · rintro ⟨hC, hrest⟩
      exact ⟨hs, (ih ((hkeep s a hs).mpr hC)).mpr hrest⟩

/-! ## Phases -/

variable {τ : Type*} {early : σ → τ → Prop} {R : τ → τ → Prop}

/-- Each party leaves its first phase at most once. A relation that only ever goes from a party that has left it to one that
has not, at one moment of the run, has no cycle. -/
theorem acyclic_of_phases (hstays : ∀ s a t, early (step s a) t → early s t)
    (hR : ∀ a b, R a b → ∃ done, done <+: run ∧ ¬ early (exec step s done) a ∧ early (exec step s done) b) (t : τ) :
    ¬ Relation.TransGen R t t := by
  have hback : ∀ done more t, early (exec step s (done ++ more)) t → early (exec step s done) t := by
    intro done more t h
    rw [exec_append] at h
    generalize exec step s done = s' at h ⊢
    induction more generalizing s' with
    | nil => exact h
    | cons a more ih => exact hstays s' a t (ih _ h)
  have hpath : ∀ a b, Relation.TransGen R a b →
      ∃ done, done <+: run ∧ ¬ early (exec step s done) a ∧ early (exec step s done) b := by
    intro a b hab
    induction hab with
    | single h => exact hR _ _ h
    | tail _ hlast ih =>
      obtain ⟨first, hfirst, ha, hb⟩ := ih
      obtain ⟨second, hsecond, hb', hc⟩ := hR _ _ hlast
      refine ⟨second, hsecond, fun ha' => ?_, hc⟩
      -- The moment of the last step is the later one, as the party between has left its phase by then.
      rcases List.prefix_or_prefix_of_prefix hfirst hsecond with ⟨more, rfl⟩ | ⟨more, rfl⟩
      · exact ha (hback first more _ ha')
      · exact hb' (hback second more _ hb)
  intro h
  obtain ⟨done, -, hnot, hearly⟩ := hpath t t h
  exact hnot hearly

end Ddb.Lib
