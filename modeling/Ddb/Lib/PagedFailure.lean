import Ddb.Lib.Paged

/-!
# Page programs whose allocation fails

A program that only reads answers by the memory alone. A careful one reads until its first allocation, and ends when that
fails: where no page can be allocated any more it has then changed nothing.
-/

namespace Ddb.Lib

variable {ι π ε σ ω α β : Type}

/-! ## Programs -/

namespace PageProg

/-- The program changes and allocates nothing, and ends in `P`. -/
def Reads (P : α → Prop) : PageProg ι π ε α → Prop
  | done a => P a
  | access _ change next => (∀ page, change page = none) ∧ ∀ answer, (next answer).Reads P
  | allocate _ => False

/-- The program allocates nothing. -/
def Fixed : PageProg ι π ε α → Prop
  | done _ => True
  | access _ _ next => ∀ answer, (next answer).Fixed
  | allocate _ => False

/-- Up to its first allocation the program only reads, and if that allocation fails it ends there. -/
def Careful (failed : ε → α) : PageProg ι π ε α → Prop
  | done _ => True
  | access _ change next =>
    (∀ page, change page = none) ∧ (∀ answer, (next answer).Careful failed) ∨ ∀ answer, (next answer).Fixed
  | allocate next => ∀ e, next (.error e) = done (failed e)

/-- No access of the run fails; an allocation may. -/
def Undisturbed (pager : Pager ι π ε ω) : PageProg ι π ε α → ω → Prop
  | done _, _ => True
  | access id change next, s => (∃ page, (pager.access id change s).1 = .ok (some page)) ∧
      (next (pager.access id change s).1).Undisturbed pager (pager.access id change s).2
  | allocate next, s => (next (pager.allocate s).1).Undisturbed pager (pager.allocate s).2

instance decidableUndisturbed (pager : Pager ι π ε ω) :
    (prog : PageProg ι π ε α) → (s : ω) → Decidable (prog.Undisturbed pager s)
  | done _, _ => isTrue trivial
  | access id change next, s =>
    have := decidableUndisturbed pager (next (pager.access id change s).1) (pager.access id change s).2
    inferInstanceAs (Decidable (_ ∧ _))
  | allocate next, s => decidableUndisturbed pager (next (pager.allocate s).1) (pager.allocate s).2

variable {prog : PageProg ι π ε α} {f : α → PageProg ι π ε β} {P : α → Prop} {pager : Pager ι π ε ω} {s : ω}

theorem Reads.bind {R : β → Prop} (h : prog.Reads P) (hf : ∀ a, P a → (f a).Reads R) : (prog.bind f).Reads R := by
  induction prog with
  | done a => exact hf a h
  | access id change next ih => exact ⟨h.1, fun answer => ih answer (h.2 answer)⟩
  | allocate next => exact h.elim

theorem Fixed.bind (h : prog.Fixed) (hf : ∀ a, (f a).Fixed) : (prog.bind f).Fixed := by
  induction prog with
  | done a => exact hf a
  | access id change next ih => exact fun answer => ih answer (h answer)
  | allocate next => exact h.elim

theorem Reads.fixed (h : prog.Reads P) : prog.Fixed := by
  induction prog with
  | done a => trivial
  | access id change next ih => exact fun answer => ih answer (h.2 answer)
  | allocate next => exact h.elim

theorem Reads.careful {failed : ε → β} (h : prog.Reads P) (hf : ∀ a, P a → (f a).Careful failed) :
    (prog.bind f).Careful failed := by
  induction prog with
  | done a => exact hf a h
  | access id change next ih => exact .inl ⟨h.1, fun answer => ih answer (h.2 answer)⟩
  | allocate next => exact h.elim

theorem Fixed.careful {failed : ε → α} (h : prog.Fixed) : prog.Careful failed := by
  cases prog with
  | done a => trivial
  | access id change next => exact .inr h
  | allocate next => exact h.elim

theorem Careful.bind {failed : ε → α} {failed' : ε → β} (h : prog.Careful failed) (hf : ∀ a, (f a).Fixed)
    (hfailed : ∀ e, f (failed e) = done (failed' e)) : (prog.bind f).Careful failed' := by
  induction prog with
  | done a => exact (hf a).careful
  | access id change next ih =>
    rcases h with ⟨hreads, hnext⟩ | hfixed
    · exact .inl ⟨hreads, fun answer => ih answer (hnext answer)⟩
    · exact .inr fun answer => (hfixed answer).bind hf
  | allocate next ih =>
    intro e
    change (next (.error e)).bind f = _
    rw [h e]
    exact hfailed e

theorem Fixed.smooth (h : prog.Fixed) (hrun : prog.Undisturbed pager s) : prog.Smooth pager s := by
  induction prog generalizing s with
  | done a => trivial
  | access id change next ih => exact ⟨hrun.1, ih _ (h _) hrun.2⟩
  | allocate next => exact h.elim

end PageProg

section Failures

variable [DecidableEq ι] {pager pager' : Pager ι π ε ω} {blank : Blank ι π} {mem : ω → Memory ι π} {Ready : ω → Prop}
  {prog : PageProg ι π ε α} {s s' : ω}

/-- A program that only reads does on the memory what it did on the pager. -/
theorem Pager.Shows.sat_of_reads (hshows : pager.Shows blank mem Ready) {P : α → Prop} (h : prog.Reads P) (hready : Ready s)
    (hsmooth : prog.Smooth pager s) : prog.Sat blank (mem s) fun a _ => a = (prog.run pager s).1 := by
  induction prog generalizing s with
  | done a => rfl
  | access id change next ih =>
    obtain ⟨⟨page, hpage⟩, hsmooth⟩ := hsmooth
    obtain ⟨hread, hmem, hready⟩ := hshows.access hready (Prod.ext hpage rfl)
    refine ⟨page, hread, ?_⟩
    rw [PageProg.run]
    rw [hpage] at hsmooth ⊢
    rw [← hmem]
    exact ih _ (h.2 _) hready hsmooth
  | allocate next => exact h.elim

/-- It answers the same on every pager that shows the same memory. -/
theorem Pager.Shows.same_answer (hshows : pager.Shows blank mem Ready) (hshows' : pager'.Shows blank mem Ready) {P : α → Prop}
    (h : prog.Reads P) (hready : Ready s) (hready' : Ready s') (hmem : mem s' = mem s) (hsmooth : prog.Smooth pager s)
    (hsmooth' : prog.Smooth pager' s') : (prog.run pager' s').1 = (prog.run pager s).1 := by
  have hsat := hshows.sat_of_reads h hready hsmooth
  rw [← hmem] at hsat
  exact (hshows'.run_of_sat hready' hsmooth' hsat).1

/-- In these states every allocation fails. -/
structure Pager.Exhausted (pager : Pager ι π ε ω) (Ready Full : ω → Prop) (e : ε) : Prop where
  access : ∀ {s s' : ω} {id : ι} {change : π → Option π} {page : π}, Ready s → Full s →
    pager.access id change s = (.ok (some page), s') → Full s'
  allocate : ∀ {s : ω}, Full s → pager.allocate s = (.error e, s)

/-- A careful program that no allocation can be made for makes none, or it ends with the failure of its first one and has
changed nothing. -/
theorem Pager.Shows.careful_run (hshows : pager.Shows blank mem Ready) {Full : ω → Prop} {e : ε}
    (hexhausted : pager.Exhausted Ready Full e) {failed : ε → α} (h : prog.Careful failed) (hready : Ready s) (hfull : Full s)
    (hrun : prog.Undisturbed pager s) : prog.Smooth pager s ∨
      (prog.run pager s).1 = failed e ∧ mem (prog.run pager s).2 = mem s ∧ Ready (prog.run pager s).2 := by
  induction prog generalizing s with
  | done a => exact .inl trivial
  | access id change next ih =>
    obtain ⟨⟨page, hpage⟩, hrest⟩ := hrun
    obtain ⟨-, hmem, hready'⟩ := hshows.access hready (Prod.ext hpage rfl)
    rcases h with ⟨hreads, hnext⟩ | hfixed
    · rw [hreads page, Memory.put_none] at hmem
      rcases ih _ (hnext _) hready' (hexhausted.access hready hfull (Prod.ext hpage rfl)) hrest with hsmooth | ⟨hfailed, hsame, hready'⟩
      · exact .inl ⟨⟨page, hpage⟩, hsmooth⟩
      · exact .inr ⟨hfailed, hsame.trans hmem, hready'⟩
    · exact .inl ⟨⟨page, hpage⟩, (hfixed _).smooth hrest⟩
  | allocate next ih =>
    have hfails := hexhausted.allocate hfull
    right
    rw [PageProg.run, hfails, h e]
    exact ⟨rfl, rfl, hready⟩

end Failures

/-! ## Methods -/

namespace Method

/-- The method changes neither a page nor the fields. -/
def Reads (x : Method ι π ε σ α) : Prop := ∀ o, (x.run o).Reads fun result => result.2 = o

/-- The method allocates nothing. -/
def Fixed (x : Method ι π ε σ α) : Prop := ∀ o, (x.run o).Fixed

/-- Up to its first allocation the method only reads, and if that fails it throws on the failure. -/
def Careful (x : Method ι π ε σ α) : Prop := ∀ o, (x.run o).Careful fun e => (.error e, o)

variable {x : Method ι π ε σ α} {f : α → Method ι π ε σ β}

theorem reads_pure (a : α) : (pure a : Method ι π ε σ α).Reads := fun _ => rfl

theorem reads_throw (e : ε) : (throw e : Method ι π ε σ α).Reads := fun _ => rfl

theorem reads_get : (get : Method ι π ε σ σ).Reads := fun _ => rfl

theorem reads_pin {id : ι} {change : π → Option π} (missing : ε) (h : ∀ page, change page = none) :
    (pin id change missing : Method ι π ε σ π).Reads := by
  refine fun o => ⟨h, fun answer => ?_⟩
  cases answer with
  | error e => rfl
  | ok page => cases page <;> rfl

theorem Reads.bind (h : x.Reads) (hf : ∀ a, (f a).Reads) : (x >>= f).Reads := by
  refine fun o => (h o).bind ?_
  rintro ⟨outcome, o⟩ rfl
  cases outcome with
  | error e => rfl
  | ok a => exact hf a o

theorem Reads.fixed (h : x.Reads) : x.Fixed := fun o => (h o).fixed

theorem fixed_pin (id : ι) (change : π → Option π) (missing : ε) : (pin id change missing : Method ι π ε σ π).Fixed := by
  intro o answer
  cases answer with
  | error e => trivial
  | ok page => cases page <;> trivial

theorem Fixed.bind (h : x.Fixed) (hf : ∀ a, (f a).Fixed) : (x >>= f).Fixed := by
  refine fun o => (h o).bind ?_
  rintro ⟨outcome, o⟩
  cases outcome with
  | error e => trivial
  | ok a => exact hf a o

theorem Fixed.ite {c : Prop} [Decidable c] {y : Method ι π ε σ α} (hx : x.Fixed) (hy : y.Fixed) :
    (if c then x else y).Fixed := by
  split
  · exact hx
  · exact hy

theorem fixed_update (id : ι) (change : π → Option π) (missing refused : ε) :
    (update id change missing refused : Method ι π ε σ π).Fixed := by
  refine (fixed_pin id change missing).bind fun page => ?_
  split
  · exact (reads_pure page).fixed
  · exact (reads_throw refused).fixed

theorem Fixed.careful (h : x.Fixed) : x.Careful := fun o => (h o).careful

theorem Reads.careful (h : x.Reads) (hf : ∀ a, (f a).Careful) : (x >>= f).Careful := by
  refine fun o => PageProg.Reads.careful (h o) ?_
  rintro ⟨outcome, o⟩ rfl
  cases outcome with
  | error e => trivial
  | ok a => exact hf a o

theorem Careful.bind (h : x.Careful) (hf : ∀ a, (f a).Fixed) : (x >>= f).Careful := by
  refine fun o => PageProg.Careful.bind (h o) ?_ fun _ => rfl
  rintro ⟨outcome, o⟩
  cases outcome with
  | error e => trivial
  | ok a => exact hf a o

theorem careful_allocate (f : ι → Method ι π ε σ β) : (allocate >>= f).Careful := fun _ _ => rfl

end Method

end Ddb.Lib
