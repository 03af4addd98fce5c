import Ddb.Lib.PagedFailure

/-!
# Objects that only read pages

A method that only looks at pages may change its own fields. It leaves the memory as it was, and so it does on a pager whose
reads show in nothing, also when they fail.
-/

namespace Ddb.Lib

variable {ι π ε σ τ ω α β : Type}

namespace PageProg

variable {prog : PageProg ι π ε α} {P : α → Prop} {pager : Pager ι π ε ω} {s : ω}

theorem Reads.mono {R : α → Prop} (h : prog.Reads P) (hPR : ∀ a, P a → R a) : prog.Reads R := by
  induction prog with
  | done a => exact hPR a h
  | access id change next ih => exact ⟨h.1, fun answer => ih answer (h.2 answer)⟩
  | allocate next => exact h.elim

theorem Reads.sat [DecidableEq ι] {blank : Blank ι π} {m : Memory ι π} {Q : α → Memory ι π → Prop} (h : prog.Reads P)
    (hsat : prog.Sat blank m Q) : prog.Sat blank m fun a m' => (Q a m ∧ P a) ∧ m' = m := by
  induction prog with
  | done a => exact ⟨⟨hsat, h⟩, rfl⟩
  | access id change next ih =>
    obtain ⟨page, hpage, hsat⟩ := hsat
    refine ⟨page, hpage, ?_⟩
    rw [h.1 page, Memory.put_none] at hsat ⊢
    exact ih _ (h.2 _) hsat
  | allocate next => exact h.elim

theorem Reads.exists_of_sat [DecidableEq ι] {blank : Blank ι π} {m : Memory ι π} {Q : α → Memory ι π → Prop} (h : prog.Reads P)
    (hsat : prog.Sat blank m Q) : ∃ a, Q a m ∧ P a := by
  induction prog with
  | done a => exact ⟨a, hsat, h⟩
  | access id change next ih =>
    obtain ⟨page, -, hsat⟩ := hsat
    rw [h.1 page, Memory.put_none] at hsat
    exact ih _ (h.2 _) hsat
  | allocate next => exact h.elim

theorem Reads.run_keeps {I : ω → Prop}
    (haccess : ∀ s id change, (∀ page, change page = none) → I s → I (pager.access id change s).2) (h : prog.Reads P)
    (hs : I s) : I (prog.run pager s).2 := by
  induction prog generalizing s with
  | done a => exact hs
  | access id change next ih => exact ih _ (h.2 _) (haccess s id change h.1 hs)
  | allocate next => exact h.elim

end PageProg

theorem Pager.Shows.ready_of_smooth [DecidableEq ι] {pager : Pager ι π ε ω} {blank : Blank ι π} {mem : ω → Memory ι π}
    {Ready : ω → Prop} (hshows : pager.Shows blank mem Ready) {prog : PageProg ι π ε α} {s : ω} (hready : Ready s)
    (hsmooth : prog.Smooth pager s) : Ready (prog.run pager s).2 := by
  induction prog generalizing s with
  | done a => exact hready
  | access id change next ih =>
    obtain ⟨⟨page, hpage⟩, hsmooth⟩ := hsmooth
    exact ih _ (hshows.access hready (Prod.ext hpage rfl)).2.2 hsmooth
  | allocate next ih =>
    obtain ⟨⟨id, hid⟩, hsmooth⟩ := hsmooth
    exact ih _ (hshows.allocate hready (Prod.ext hid rfl)).2.2.2 hsmooth

namespace Method

/-- What an expression without page accesses returns or throws. -/
def ofExcept (outcome : Except ε α) : Method ι π ε σ α := ⟨fun o => .done (outcome, o)⟩

/-- A method of a part of the object. -/
def zoom (part : τ → σ) (put : τ → σ → τ) (x : Method ι π ε σ α) : Method ι π ε τ α :=
  ⟨fun o => (x.run (part o)).bind fun result => .done (result.1, put o result.2)⟩

/-- Called on `o`, the method changes neither a page nor the fields, and what it returns is in `P`. -/
def Tells (x : Method ι π ε σ α) (o : σ) (P : α → Prop) : Prop :=
  (x.run o).Reads fun result => result.2 = o ∧ ∀ a, result.1 = .ok a → P a

/-- The method changes no page. -/
def Looks (x : Method ι π ε σ α) : Prop := ∀ o, (x.run o).Reads fun _ => True

variable {x : Method ι π ε σ α} {f : α → Method ι π ε σ β} {part : τ → σ} {put : τ → σ → τ}

section Tells

variable {o : σ} {P : α → Prop} {R : β → Prop}

theorem Reads.tells (h : x.Reads) : x.Tells o fun _ => True := (h o).mono fun _ ho => ⟨ho, fun _ _ => trivial⟩

theorem tells_pure {a : α} (h : P a) : (pure a : Method ι π ε σ α).Tells o P := ⟨rfl, fun _ ha => Except.ok.inj ha ▸ h⟩

theorem tells_throw (e : ε) : (throw e : Method ι π ε σ α).Tells o P := ⟨rfl, nofun⟩

theorem tells_throw_bind (e : ε) (f : α → Method ι π ε σ β) : (throw e >>= f).Tells o R := ⟨rfl, nofun⟩

theorem Tells.ite {c : Prop} [Decidable c] {y : Method ι π ε σ α} (hx : x.Tells o P) (hy : y.Tells o P) :
    (if c then x else y).Tells o P := by
  split
  · exact hx
  · exact hy

theorem tells_get : (get : Method ι π ε σ σ).Tells o (· = o) := ⟨rfl, fun _ ha => (Except.ok.inj ha).symm⟩

theorem Tells.bind (h : x.Tells o P) (hf : ∀ a, P a → (f a).Tells o R) : (x >>= f).Tells o R := by
  refine PageProg.Reads.bind h ?_
  rintro ⟨outcome, o'⟩ ⟨rfl, hP⟩
  cases outcome with
  | error e => exact ⟨rfl, nofun⟩
  | ok a => exact hf a (hP a rfl)

theorem Reads.tells_bind (h : x.Reads) (hf : ∀ a, (f a).Tells o R) : (x >>= f).Tells o R := h.tells.bind fun a _ => hf a

end Tells

theorem Reads.looks (h : x.Reads) : x.Looks := fun o => (h o).mono fun _ _ => trivial

theorem reads_access {id : ι} {change : π → Option π} (h : ∀ page, change page = none) :
    (access id change : Method ι π ε σ (Option π)).Reads := fun _ => ⟨h, fun _ => rfl⟩

theorem looks_pure (a : α) : (pure a : Method ι π ε σ α).Looks := fun _ => trivial

theorem looks_throw (e : ε) : (throw e : Method ι π ε σ α).Looks := fun _ => trivial

theorem looks_get : (get : Method ι π ε σ σ).Looks := fun _ => trivial

theorem looks_set (o : σ) : (set o : Method ι π ε σ PUnit).Looks := fun _ => trivial

theorem looks_modify (g : σ → σ) : (modify g : Method ι π ε σ PUnit).Looks := fun _ => trivial

theorem looks_ofExcept (outcome : Except ε α) : (ofExcept outcome : Method ι π ε σ α).Looks := fun _ => trivial

theorem Looks.bind (h : x.Looks) (hf : ∀ a, (f a).Looks) : (x >>= f).Looks := by
  refine fun o => PageProg.Reads.bind (h o) ?_
  rintro ⟨outcome, o⟩ -
  cases outcome with
  | error e => trivial
  | ok a => exact hf a o

theorem Looks.ite {c : Prop} [Decidable c] {y : Method ι π ε σ α} (hx : x.Looks) (hy : y.Looks) :
    (if c then x else y).Looks := by
  split
  · exact hx
  · exact hy

theorem Tells.looks_on {P : α → Prop} {object : σ} (h : x.Tells object P) : (on object x : Method ι π ε τ α).Looks :=
  fun _ => PageProg.Reads.bind h fun _ _ => trivial

theorem Looks.zoom (h : x.Looks) : (x.zoom part put).Looks := fun o => PageProg.Reads.bind (h (part o)) fun _ _ => trivial

section Gives

variable [DecidableEq ι] {blank : Blank ι π} {m : Memory ι π} {Q : α → σ → Memory ι π → Prop}

theorem gives_ofExcept {outcome : Except ε α} {a : α} {o : σ} (houtcome : outcome = .ok a) (h : Q a o m) :
    (ofExcept outcome : Method ι π ε σ α).Gives blank o m Q := ⟨a, houtcome, h⟩

theorem gives_zoom {o : τ} {Q : α → τ → Memory ι π → Prop}
    (h : x.Gives blank (part o) m fun a c m' => Q a (put o c) m') : (x.zoom part put).Gives blank o m Q := by
  refine PageProg.sat_bind (PageProg.Sat.mono h ?_)
  rintro ⟨result, c⟩ m' ⟨a, rfl, hQ⟩
  exact ⟨a, rfl, hQ⟩

/-- A method that only reads leaves the memory it was run on. -/
theorem Tells.gives {P : α → Prop} {o : σ} (h : x.Tells o P) (hgives : x.Gives blank o m Q) :
    x.Gives blank o m fun a o' m' => Q a o m ∧ P a ∧ o' = o ∧ m' = m := by
  refine PageProg.Sat.mono (h.sat hgives) ?_
  rintro ⟨result, o'⟩ m' ⟨⟨⟨a, rfl, hQ⟩, rfl, hP⟩, rfl⟩
  exact ⟨a, rfl, hQ, hP a rfl, rfl, rfl⟩

theorem Tells.exists_of_gives {P : α → Prop} {o : σ} (h : x.Tells o P) (hgives : x.Gives blank o m Q) : ∃ a, Q a o m ∧ P a := by
  obtain ⟨⟨result, o'⟩, ⟨a, rfl, hQ⟩, rfl, hP⟩ := h.exists_of_sat hgives
  exact ⟨a, hQ, hP a rfl⟩

end Gives

end Method

end Ddb.Lib
