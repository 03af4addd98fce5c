import Mathlib.Logic.Function.Basic

/-!
# Programs over a store of pages

A data structure that lives on pages is a program: it accesses pages one at a time, each access reading a page and
changing it or not, and it allocates new ones. Such a program is run on a pager, which may answer with an error, or with
nothing when the page could not be had. What it does when nothing fails is said by `Sat` on a memory, a partial map from
ids to pages: a postcondition that holds whatever fresh ids the allocations return. `run_of_sat` carries it over to every
pager whose states show such a memory.

A method is a program of an object: it has the fields of the object as a state and can throw. The fields are kept when it
throws.
-/

namespace Ddb.Lib

/-- A page program: what it asks for, and how it goes on with the answer. -/
inductive PageProg (ι π ε α : Type) where
  | done (a : α)
  /-- Read a page, and change it when `change` says so. The answer is the page as it was read. -/
  | access (id : ι) (change : π → Option π) (next : Except ε (Option π) → PageProg ι π ε α)
  | allocate (next : Except ε ι → PageProg ι π ε α)

structure Pager (ι π ε σ : Type) where
  access : ι → (π → Option π) → σ → Except ε (Option π) × σ
  allocate : σ → Except ε ι × σ

abbrev Memory (ι π : Type) := ι → Option π

/-- What an allocation gives: a page with this content, under an id that may be given out. -/
structure Blank (ι π : Type) where
  page : π
  valid : ι → Prop

variable {ι π ε σ ω α β : Type} [DecidableEq ι]

/-- The page after an access. -/
def Memory.put (m : Memory ι π) (id : ι) : Option π → Memory ι π
  | some page => Function.update m id (some page)
  | none => m

@[simp] theorem Memory.put_none (m : Memory ι π) (id : ι) : m.put id none = m := rfl

theorem Memory.put_of_ne {m : Memory ι π} {id other : ι} (h : other ≠ id) (page : Option π) :
    m.put id page other = m other := by
  cases page with
  | none => rfl
  | some page => exact Function.update_of_ne h _ _

@[simp] theorem Memory.put_some_self (m : Memory ι π) (id : ι) (page : π) : m.put id (some page) id = some page :=
  Function.update_self _ _ _

namespace PageProg

def bind : PageProg ι π ε α → (α → PageProg ι π ε β) → PageProg ι π ε β
  | done a, f => f a
  | access id change next, f => access id change fun answer => (next answer).bind f
  | allocate next, f => allocate fun answer => (next answer).bind f

def run (pager : Pager ι π ε ω) : PageProg ι π ε α → ω → α × ω
  | done a, s => (a, s)
  | access id change next, s => (next (pager.access id change s).1).run pager (pager.access id change s).2
  | allocate next, s => (next (pager.allocate s).1).run pager (pager.allocate s).2

/-- No access and no allocation of the run fails. -/
def Smooth (pager : Pager ι π ε ω) : PageProg ι π ε α → ω → Prop
  | done _, _ => True
  | access id change next, s => (∃ page, (pager.access id change s).1 = .ok (some page)) ∧
      (next (pager.access id change s).1).Smooth pager (pager.access id change s).2
  | allocate next, s => (∃ id, (pager.allocate s).1 = .ok id) ∧
      (next (pager.allocate s).1).Smooth pager (pager.allocate s).2

instance : (answer : Except ε (Option π)) → Decidable (∃ page, answer = .ok (some page))
  | .ok (some page) => isTrue ⟨page, rfl⟩
  | .ok none => isFalse (by simp)
  | .error _ => isFalse (by simp)

instance : (answer : Except ε ι) → Decidable (∃ id, answer = .ok id)
  | .ok id => isTrue ⟨id, rfl⟩
  | .error _ => isFalse (by simp)

instance decidableSmooth (pager : Pager ι π ε ω) : (prog : PageProg ι π ε α) → (s : ω) → Decidable (prog.Smooth pager s)
  | done _, _ => isTrue trivial
  | access id change next, s =>
    have := decidableSmooth pager (next (pager.access id change s).1) (pager.access id change s).2
    inferInstanceAs (Decidable (_ ∧ _))
  | allocate next, s =>
    have := decidableSmooth pager (next (pager.allocate s).1) (pager.allocate s).2
    inferInstanceAs (Decidable (_ ∧ _))

/-- On this memory the program accesses only pages that are there and ends in `Q`, whichever fresh pages it is given. -/
def Sat (blank : Blank ι π) : PageProg ι π ε α → Memory ι π → (α → Memory ι π → Prop) → Prop
  | done a, m, Q => Q a m
  | access id change next, m, Q =>
    ∃ page, m id = some page ∧ (next (.ok (some page))).Sat blank (m.put id (change page)) Q
  | allocate next, m, Q =>
    ∀ id, m id = none → blank.valid id → (next (.ok id)).Sat blank (Function.update m id (some blank.page)) Q

variable {blank : Blank ι π} {m : Memory ι π} {prog : PageProg ι π ε α}

theorem Sat.mono {Q R : α → Memory ι π → Prop} (h : prog.Sat blank m Q) (hQR : ∀ a m, Q a m → R a m) :
    prog.Sat blank m R := by
  induction prog generalizing m with
  | done a => exact hQR a m h
  | access id change next ih =>
    obtain ⟨page, hpage, hnext⟩ := h
    exact ⟨page, hpage, ih _ hnext⟩
  | allocate next ih => exact fun id hid hvalid => ih _ (h id hid hvalid)

theorem Sat.and {Q R : α → Memory ι π → Prop} (hQ : prog.Sat blank m Q) (hR : prog.Sat blank m R) :
    prog.Sat blank m fun a m' => Q a m' ∧ R a m' := by
  induction prog generalizing m with
  | done a => exact ⟨hQ, hR⟩
  | access id change next ih =>
    obtain ⟨page, hpage, hQ⟩ := hQ
    obtain ⟨page', hpage', hR⟩ := hR
    obtain rfl := Option.some.inj (hpage.symm.trans hpage')
    exact ⟨page, hpage, ih _ hQ hR⟩
  | allocate next ih => exact fun id hfree hvalid => ih _ (hQ id hfree hvalid) (hR id hfree hvalid)

theorem sat_bind {Q : β → Memory ι π → Prop} {f : α → PageProg ι π ε β}
    (h : prog.Sat blank m fun a m => (f a).Sat blank m Q) : (prog.bind f).Sat blank m Q := by
  induction prog generalizing m with
  | done a => exact h
  | access id change next ih =>
    obtain ⟨page, hpage, hnext⟩ := h
    exact ⟨page, hpage, ih _ hnext⟩
  | allocate next ih => exact fun id hid hvalid => ih _ (h id hid hvalid)

omit [DecidableEq ι] in
/-- Where the accesses and the allocations stay within a relation, so does a program. -/
theorem run_within {pager : Pager ι π ε σ} {R : σ → σ → Prop} (hrefl : ∀ s, R s s) (htrans : ∀ a b c, R a b → R b c → R a c)
    (haccess : ∀ id change s, R s (pager.access id change s).2) (hallocate : ∀ s, R s (pager.allocate s).2)
    (prog : PageProg ι π ε α) (s : σ) : R s (prog.run pager s).2 := by
  induction prog generalizing s with
  | done a => exact hrefl s
  | access id change next ih => exact htrans _ _ _ (haccess id change s) (ih _ _)
  | allocate next ih => exact htrans _ _ _ (hallocate s) (ih _ _)

end PageProg

/-! ## Pagers that show a memory -/

/-- In its ready states the pager shows a memory, and answers that are no failure act on it as they should. -/
structure Pager.Shows (pager : Pager ι π ε ω) (blank : Blank ι π) (mem : ω → Memory ι π) (Ready : ω → Prop) : Prop where
  access : ∀ {s s' : ω} {id : ι} {change : π → Option π} {page : π}, Ready s →
    pager.access id change s = (.ok (some page), s') →
    mem s id = some page ∧ mem s' = (mem s).put id (change page) ∧ Ready s'
  allocate : ∀ {s s' : ω} {id : ι}, Ready s → pager.allocate s = (.ok id, s') →
    mem s id = none ∧ blank.valid id ∧ mem s' = Function.update (mem s) id (some blank.page) ∧ Ready s'

/-- What a program does on the memory it does on the pager, if nothing fails. -/
theorem Pager.Shows.run_of_sat {pager : Pager ι π ε ω} {blank : Blank ι π} {mem : ω → Memory ι π} {Ready : ω → Prop}
    (hshows : pager.Shows blank mem Ready) {prog : PageProg ι π ε α} {s : ω} {Q : α → Memory ι π → Prop}
    (hready : Ready s) (hsmooth : prog.Smooth pager s) (hsat : prog.Sat blank (mem s) Q) :
    Q (prog.run pager s).1 (mem (prog.run pager s).2) ∧ Ready (prog.run pager s).2 := by
  induction prog generalizing s with
  | done a => exact ⟨hsat, hready⟩
  | access id change next ih =>
    obtain ⟨⟨page, hpage⟩, hsmooth⟩ := hsmooth
    obtain ⟨page', hpage', hsat⟩ := hsat
    obtain ⟨hread, hmem, hready⟩ := hshows.access hready (Prod.ext hpage rfl)
    obtain rfl : page' = page := Option.some.inj (hpage'.symm.trans hread)
    rw [PageProg.run]
    rw [hpage] at hsmooth ⊢
    exact ih _ hready hsmooth (by rwa [hmem])
  | allocate next ih =>
    obtain ⟨⟨id, hid⟩, hsmooth⟩ := hsmooth
    obtain ⟨hfree, hvalid, hmem, hready⟩ := hshows.allocate hready (Prod.ext hid rfl)
    rw [PageProg.run]
    rw [hid] at hsmooth ⊢
    exact ih _ hready hsmooth (by rw [hmem]; exact hsat id hfree hvalid)

/-! ## Methods -/

/-- A page program with the fields of an object. -/
structure Method (ι π ε σ α : Type) where
  run : σ → PageProg ι π ε (Except ε α × σ)

namespace Method

/-- What follows a method that returned; an exception is passed on. -/
def andThen (f : α → Method ι π ε σ β) : Except ε α × σ → PageProg ι π ε (Except ε β × σ)
  | (.ok a, o) => (f a).run o
  | (.error e, o) => .done (.error e, o)

instance : Monad (Method ι π ε σ) where
  pure a := ⟨fun o => .done (.ok a, o)⟩
  bind x f := ⟨fun o => (x.run o).bind (andThen f)⟩

instance : MonadStateOf σ (Method ι π ε σ) where
  get := ⟨fun o => .done (.ok o, o)⟩
  set o := ⟨fun _ => .done (.ok (), o)⟩
  modifyGet f := ⟨fun o => .done (.ok (f o).1, (f o).2)⟩

instance : MonadExceptOf ε (Method ι π ε σ) where
  throw e := ⟨fun o => .done (.error e, o)⟩
  tryCatch x handle := ⟨fun o => (x.run o).bind fun
    | (.ok a, o) => .done (.ok a, o)
    | (.error e, o) => (handle e).run o⟩

def access (id : ι) (change : π → Option π) : Method ι π ε σ (Option π) :=
  ⟨fun o => .access id change fun answer => .done (answer, o)⟩

def allocate : Method ι π ε σ ι := ⟨fun o => .allocate fun answer => .done (answer, o)⟩

/-- An access whose page must be there. -/
def pin (id : ι) (change : π → Option π) (missing : ε) : Method ι π ε σ π := do
  match ← access id change with
  | some page => return page
  | none => throw missing

/-- An access that must change the page. -/
def update (id : ι) (change : π → Option π) (missing refused : ε) : Method ι π ε σ π := do
  let page ← pin id change missing
  if (change page).isSome then return page else throw refused

/-- A method of a local object. -/
def on {τ : Type} (object : τ) (x : Method ι π ε τ α) : Method ι π ε σ α :=
  ⟨fun o => (x.run object).bind fun result => .done (result.1, o)⟩

/-- The method returns, and `Q` holds of what it returns and leaves. -/
def Gives (blank : Blank ι π) (x : Method ι π ε σ α) (o : σ) (m : Memory ι π) (Q : α → σ → Memory ι π → Prop) : Prop :=
  (x.run o).Sat blank m fun result m => ∃ a, result.1 = .ok a ∧ Q a result.2 m

variable {blank : Blank ι π} {x : Method ι π ε σ α} {f : α → Method ι π ε σ β} {o : σ} {m : Memory ι π}
  {Q : α → σ → Memory ι π → Prop} {change : π → Option π}

theorem Gives.mono {R : α → σ → Memory ι π → Prop} (h : x.Gives blank o m Q) (hQR : ∀ a o m, Q a o m → R a o m) :
    x.Gives blank o m R :=
  PageProg.Sat.mono h fun _ _ ⟨a, ha, hQ⟩ => ⟨a, ha, hQR _ _ _ hQ⟩

theorem gives_bind {R : β → σ → Memory ι π → Prop} (h : x.Gives blank o m fun a o m => (f a).Gives blank o m R) :
    (x >>= f).Gives blank o m R := by
  refine PageProg.sat_bind (PageProg.Sat.mono h ?_)
  rintro ⟨result, o⟩ m ⟨a, rfl, hnext⟩
  exact hnext

theorem gives_pure {a : α} (h : Q a o m) : (pure a : Method ι π ε σ α).Gives blank o m Q := ⟨a, rfl, h⟩

theorem gives_get {Q : σ → σ → Memory ι π → Prop} (h : Q o o m) : (get : Method ι π ε σ σ).Gives blank o m Q :=
  ⟨o, rfl, h⟩

omit [DecidableEq ι] in
theorem get_bind_run {g : σ → Method ι π ε σ α} (o : σ) : ((get : Method ι π ε σ σ) >>= g).run o = (g o).run o := rfl

theorem gives_modify {g : σ → σ} {Q : PUnit → σ → Memory ι π → Prop} (h : Q ⟨⟩ (g o) m) :
    (modify g : Method ι π ε σ PUnit).Gives blank o m Q := ⟨⟨⟩, rfl, h⟩

theorem gives_access {id : ι} {page : π} {Q : Option π → σ → Memory ι π → Prop} (hpage : m id = some page)
    (h : Q (some page) o (m.put id (change page))) : (access id change : Method ι π ε σ (Option π)).Gives blank o m Q :=
  ⟨page, hpage, some page, rfl, h⟩

theorem gives_set {o' : σ} {Q : PUnit → σ → Memory ι π → Prop} (h : Q ⟨⟩ o' m) :
    (set o' : Method ι π ε σ PUnit).Gives blank o m Q := ⟨⟨⟩, rfl, h⟩

theorem gives_on {τ : Type} {object : τ} {x : Method ι π ε τ α} (h : x.Gives blank object m fun a _ m => Q a o m) :
    (on object x : Method ι π ε σ α).Gives blank o m Q := by
  refine PageProg.sat_bind (PageProg.Sat.mono h ?_)
  rintro ⟨result, object'⟩ m ⟨a, rfl, hQ⟩
  exact ⟨a, rfl, hQ⟩

theorem gives_pin {id : ι} {page : π} {missing : ε} {Q : π → σ → Memory ι π → Prop} (hpage : m id = some page)
    (h : Q page o (m.put id (change page))) : (pin id change missing : Method ι π ε σ π).Gives blank o m Q :=
  gives_bind (gives_access hpage (gives_pure h))

theorem gives_update {id : ι} {page page' : π} {missing refused : ε} {Q : π → σ → Memory ι π → Prop} (hpage : m id = some page)
    (hchange : change page = some page') (h : Q page o (m.put id (some page'))) :
    (update id change missing refused : Method ι π ε σ π).Gives blank o m Q := by
  apply gives_bind
  refine gives_pin hpage ?_
  rw [hchange]
  exact gives_pure h

theorem gives_allocate {Q : ι → σ → Memory ι π → Prop}
    (h : ∀ id, m id = none → blank.valid id → Q id o (Function.update m id (some blank.page))) :
    (allocate : Method ι π ε σ ι).Gives blank o m Q :=
  fun id hfree hvalid => ⟨id, rfl, h id hfree hvalid⟩

end Method

end Ddb.Lib
