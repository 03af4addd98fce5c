import Ddb.Lib.PagedReading

/-!
# What reading methods answer

A method that only reads is a function of the memory: it answers a value or throws, whatever the pages hold. `answer` is that
function, and it takes the sequence of two such methods to the sequence of their answers, so that a method of many reads is
computed piece by piece.
-/

namespace Ddb.Lib

variable {ι π ε σ ω α β : Type} [DecidableEq ι]

/-! ## Sequences of answers -/

theorem ok_bind (a : α) (f : α → Except ε β) : (.ok a : Except ε α) >>= f = f a := rfl

theorem bind_ne_error {x : Except ε α} {f : α → Except ε β} {e : ε} (hx : x ≠ .error e) (hf : ∀ a, x = .ok a → f a ≠ .error e) :
    x >>= f ≠ .error e := by
  cases x with
  | error e' => exact fun h => hx (congrArg Except.error (Except.error.inj h))
  | ok a => exact hf a rfl

/-! ## Memories as pagers -/

/-- A memory as a pager: its pages can always be had, and there is no room for new ones. -/
def Memory.pager (full : ε) : Pager ι π ε (Memory ι π) where
  access id change m := (.ok (m id), m.put id ((m id).bind change))
  allocate m := (.error full, m)

namespace PageProg

variable {prog : PageProg ι π ε α} {f : α → PageProg ι π ε β} {P : α → Prop} {full : ε} {m : Memory ι π}

omit [DecidableEq ι] in
theorem run_bind (pager : Pager ι π ε ω) (s : ω) :
    (prog.bind f).run pager s = (f (prog.run pager s).1).run pager (prog.run pager s).2 := by
  induction prog generalizing s with
  | done a => rfl
  | access id change next ih => exact ih _ _
  | allocate next ih => exact ih _ _

theorem Reads.run_memory (h : prog.Reads P) : (prog.run (Memory.pager full) m).2 = m ∧ P (prog.run (Memory.pager full) m).1 := by
  induction prog with
  | done a => exact ⟨rfl, h⟩
  | access id change next ih =>
    have hsame : m.put id ((m id).bind change) = m := by
      cases hpage : m id with
      | none => rfl
      | some page =>
        rw [Option.bind_some, h.1 page]
        rfl
    rw [PageProg.run]
    dsimp only [Memory.pager]
    rw [hsame]
    exact ih _ (h.2 _)
  | allocate next => exact h.elim

end PageProg

namespace Method

variable {x : Method ι π ε σ α} {f : α → Method ι π ε σ β} {full : ε} {m : Memory ι π} {o : σ}

/-- What the method returns or throws on the memory. -/
def answer (full : ε) (m : Memory ι π) (o : σ) (x : Method ι π ε σ α) : Except ε α := ((x.run o).run (Memory.pager full) m).1.1

@[simp] theorem answer_pure (a : α) : (pure a : Method ι π ε σ α).answer full m o = .ok a := rfl

@[simp] theorem answer_throw (e : ε) : (throw e : Method ι π ε σ α).answer full m o = .error e := rfl

theorem run_memory (h : x.Reads) : (x.run o).run (Memory.pager full) m = ((x.answer full m o, o), m) := by
  have hsame : ((x.run o).run (Memory.pager full) m).2 = m ∧ ((x.run o).run (Memory.pager full) m).1.2 = o := (h o).run_memory
  exact Prod.ext (Prod.ext rfl hsame.2) hsame.1

theorem answer_bind (h : x.Reads) :
    (x >>= f).answer full m o = x.answer full m o >>= fun a => (f a).answer full m o := by
  change (((x.run o).bind (andThen f)).run _ m).1.1 = _
  rw [PageProg.run_bind, run_memory h]
  cases x.answer full m o with
  | error e | ok a => rfl

theorem answer_bind_ok (h : x.Reads) {a : α} (hx : x.answer full m o = .ok a) :
    (x >>= f).answer full m o = (f a).answer full m o := by
  rw [answer_bind h, hx, ok_bind]

theorem answer_get_bind {f : σ → Method ι π ε σ β} : (get >>= f).answer full m o = (f o).answer full m o :=
  answer_bind_ok reads_get rfl

theorem answer_ofExcept_bind (a : α) : (ofExcept (.ok a) >>= f).answer full m o = (f a).answer full m o := rfl

theorem answer_look {f : Option π → Method ι π ε σ α} (id : ι) :
    (access id (fun _ => none) >>= f).answer full m o = (f (m id)).answer full m o :=
  answer_bind_ok (reads_access fun _ => rfl) rfl

theorem answer_pin {id : ι} {change : π → Option π} {missing : ε} : (pin id change missing : Method ι π ε σ π).answer full m o =
    (match m id with
      | some page => .ok page
      | none => .error missing) := by
  cases hpage : m id with
  | some page => simp [pin, access, answer, PageProg.run, PageProg.bind, andThen, Memory.pager, hpage, Bind.bind, Pure.pure]
  | none => simp [pin, access, answer, PageProg.run, PageProg.bind, andThen, Memory.pager, hpage, Bind.bind, throw, throwThe,
      MonadExceptOf.throw]

/-- What a handler does with the end of a method. -/
def rescue (handle : ε → Method ι π ε σ α) : Except ε α × σ → PageProg ι π ε (Except ε α × σ)
  | (.ok a, o) => .done (.ok a, o)
  | (.error e, o) => (handle e).run o

theorem answer_tryCatch (h : x.Reads) (handle : ε → Method ι π ε σ α) :
    (tryCatch x handle : Method ι π ε σ α).answer full m o =
      (match x.answer full m o with
        | .ok a => .ok a
        | .error e => (handle e).answer full m o) := by
  change (((x.run o).bind (rescue handle)).run _ m).1.1 = _
  rw [PageProg.run_bind, run_memory h]
  cases x.answer full m o with
  | error e | ok a => rfl

end Method

end Ddb.Lib
