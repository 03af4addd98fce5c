import Ddb.Lib.PagedFailure

/-!
# What the runs of page programs keep, and which of them change nothing

What every access and every allocation of a pager keeps, every program keeps, however its run ends. A program is idle with
respect to some of its answers if it changes no page whenever it gives one of them.
-/

namespace Ddb.Lib

variable {ι π ε σ ω α β γ : Type}

namespace PageProg

variable {pager : Pager ι π ε ω} {prog : PageProg ι π ε α} {s : ω}

theorem run_keeps {I : ω → Prop} (haccess : ∀ s id change, I s → I (pager.access id change s).2)
    (hallocate : ∀ s, I s → I (pager.allocate s).2) (h : I s) : I (prog.run pager s).2 := by
  induction prog generalizing s with
  | done a => exact h
  | access id change next ih => exact ih _ (haccess s id change h)
  | allocate next ih => exact ih _ (hallocate s h)

/-- The program never ends in `P`. -/
def Avoids (P : α → Prop) : PageProg ι π ε α → Prop
  | done a => ¬ P a
  | access _ _ next | allocate next => ∀ answer, (next answer).Avoids P

/-- The program changes no page if it ends in `P`. -/
def IdleIf (P : α → Prop) : PageProg ι π ε α → Prop
  | done _ => True
  | access _ change next => ∀ answer, (next answer).Avoids P ∨
      (∀ page, answer = .ok (some page) → change page = none) ∧ (next answer).IdleIf P
  | allocate next => ∀ answer, (next answer).IdleIf P

variable {P : α → Prop} {f : α → PageProg ι π ε β} {R : β → Prop}

theorem Avoids.not_run (h : prog.Avoids P) : ¬ P (prog.run pager s).1 := by
  induction prog generalizing s with
  | done a => exact h
  | access id change next ih => exact ih _ (h _)
  | allocate next ih => exact ih _ (h _)

theorem avoids_bind (h : ∀ a, (f a).Avoids R) : (prog.bind f).Avoids R := by
  induction prog with
  | done a => exact h a
  | access id change next ih | allocate next ih => exact fun answer => ih answer

theorem Avoids.idleIf (h : prog.Avoids P) : prog.IdleIf P := by
  induction prog with
  | done a => trivial
  | access id change next => exact fun answer => .inl (h answer)
  | allocate next ih => exact fun answer => ih answer (h answer)

theorem Reads.idleIf (h : prog.Reads P) (hf : ∀ a, P a → (f a).IdleIf R) : (prog.bind f).IdleIf R := by
  induction prog with
  | done a => exact hf a h
  | access id change next ih => exact fun answer => .inr ⟨fun page _ => h.1 page, ih answer (h.2 answer)⟩
  | allocate next => exact h.elim

/-- What only changes of pages touch is as it was. -/
theorem IdleIf.run_eq {I : ω → Prop} {g : ω → γ} (h : prog.IdleIf P)
    (haccess : ∀ s id change, I s → I (pager.access id change s).2 ∧
      ((∀ page, (pager.access id change s).1 = .ok (some page) → change page = none) → g (pager.access id change s).2 = g s))
    (hallocate : ∀ s, I s → I (pager.allocate s).2 ∧ g (pager.allocate s).2 = g s) (hs : I s)
    (hend : P (prog.run pager s).1) : g (prog.run pager s).2 = g s := by
  induction prog generalizing s with
  | done a => rfl
  | access id change next ih =>
    obtain ⟨hI, hg⟩ := haccess s id change hs
    rcases h (pager.access id change s).1 with havoids | ⟨hquiet, hnext⟩
    · exact absurd hend havoids.not_run
    · exact (ih _ hnext hI hend).trans (hg hquiet)
  | allocate next ih =>
    obtain ⟨hI, hg⟩ := hallocate s hs
    exact (ih _ (h _) hI hend).trans hg

end PageProg

namespace Method

variable {x : Method ι π ε σ α} {f : α → Method ι π ε σ β} {P : α → Prop} {R : β → Prop}

/-- An answer of a method. -/
def Answers (P : α → Prop) (result : Except ε α × σ) : Prop := ∃ a, result.1 = .ok a ∧ P a

def Avoids (P : α → Prop) (x : Method ι π ε σ α) : Prop := ∀ o, (x.run o).Avoids (Answers P)

def IdleIf (P : α → Prop) (x : Method ι π ε σ α) : Prop := ∀ o, (x.run o).IdleIf (Answers P)

theorem avoids_throw (e : ε) : (throw e : Method ι π ε σ α).Avoids P := by
  rintro o ⟨a, ha, -⟩
  cases ha

theorem avoids_pure {a : α} (h : ¬ P a) : (pure a : Method ι π ε σ α).Avoids P := by
  rintro o ⟨b, hb, hP⟩
  exact h (Except.ok.inj hb ▸ hP)

theorem avoids_bind (h : ∀ a, (f a).Avoids R) : (x >>= f).Avoids R := by
  refine fun o => PageProg.avoids_bind ?_
  rintro ⟨outcome, o⟩
  cases outcome with
  | ok a => exact h a o
  | error e =>
    rintro ⟨a, ha, -⟩
    cases ha

theorem Avoids.ite {c : Prop} [Decidable c] {y : Method ι π ε σ α} (hx : x.Avoids P) (hy : y.Avoids P) :
    (if c then x else y).Avoids P := by
  split
  · exact hx
  · exact hy

theorem Avoids.idleIf (h : x.Avoids P) : x.IdleIf P := fun o => (h o).idleIf

theorem idleIf_pure (a : α) : (pure a : Method ι π ε σ α).IdleIf P := fun _ => trivial

/-- An access that changes the page only on the way to another answer. -/
theorem idleIf_access {id : ι} {change : π → Option π} {f : Option π → Method ι π ε σ β} (hnone : (f none).IdleIf R)
    (hsome : ∀ page, (f (some page)).Avoids R ∨ change page = none ∧ (f (some page)).IdleIf R) :
    (access id change >>= f).IdleIf R := by
  intro o answer
  match answer with
  | .error e => exact .inr ⟨nofun, trivial⟩
  | .ok none => exact .inr ⟨nofun, hnone o⟩
  | .ok (some page) =>
    refine (hsome page).imp (fun havoids => havoids o) fun ⟨hkeeps, hidle⟩ => ⟨?_, hidle o⟩
    rintro other hother
    obtain rfl := Option.some.inj (Except.ok.inj hother)
    exact hkeeps

theorem Reads.idleIf (h : x.Reads) (hf : ∀ a, (f a).IdleIf R) : (x >>= f).IdleIf R := by
  refine fun o => PageProg.Reads.idleIf (h o) ?_
  rintro ⟨outcome, o⟩ -
  cases outcome with
  | error e => trivial
  | ok a => exact hf a o

end Method

end Ddb.Lib
