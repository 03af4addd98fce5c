import Mathlib.Logic.Basic

/-!
# Operations that change a state and may throw

An operation takes the state to an outcome and a state. The outcome is a value or an exception, and in both cases the
state is the one reached: a throw undoes nothing. Two shapes of statement recur and have their rules here. `Within R`
says that the state after the operation, however it ended, is related to the state before; it is how invariants and
frame conditions pass through a sequence of calls. The equations `bind_ok` and `bind_error` run a sequence forward.
-/

namespace Ddb.Lib

/-- An operation on a state `σ` that returns an `α` or throws an `ε`. -/
structure Op (ε σ α : Type) : Type where
  run : σ → Except ε α × σ

namespace Op

variable {ε σ τ α β : Type}

instance : Monad (Op ε σ) where
  pure a := ⟨fun s => (.ok a, s)⟩
  bind x f := ⟨fun s =>
    match x.run s with
    | (.ok a, s') => (f a).run s'
    | (.error e, s') => (.error e, s')⟩

instance : MonadStateOf σ (Op ε σ) where
  get := ⟨fun s => (.ok s, s)⟩
  set s := ⟨fun _ => (.ok ⟨⟩, s)⟩
  modifyGet f := ⟨fun s => (.ok (f s).1, (f s).2)⟩

instance : MonadExceptOf ε (Op ε σ) where
  throw e := ⟨fun s => (.error e, s)⟩
  tryCatch x handler := ⟨fun s =>
    match x.run s with
    | (.ok a, s') => (.ok a, s')
    | (.error e, s') => (handler e).run s'⟩

/-- Run an operation on a part of a larger state. -/
def zoom (part : τ → σ) (put : τ → σ → τ) (x : Op ε σ α) : Op ε τ α :=
  ⟨fun t => ((x.run (part t)).1, put t (x.run (part t)).2)⟩

end Op

/-- `if (condition) throw e;` -/
def throwIf {ε σ : Type} (condition : Prop) [Decidable condition] (e : ε) : Op ε σ PUnit :=
  if condition then throw e else pure ⟨⟩

namespace Op

variable {ε σ τ α β : Type} {x : Op ε σ α} {f : α → Op ε σ β} {handler : ε → Op ε σ α} {s s' : σ}

@[simp] theorem pure_run (a : α) (s : σ) : (pure a : Op ε σ α).run s = (.ok a, s) := rfl

@[simp] theorem get_run (s : σ) : (get : Op ε σ σ).run s = (.ok s, s) := rfl

@[simp] theorem set_run (s t : σ) : (set t : Op ε σ PUnit).run s = (.ok ⟨⟩, t) := rfl

@[simp] theorem modify_run (f : σ → σ) (s : σ) : (modify f : Op ε σ PUnit).run s = (.ok ⟨⟩, f s) := rfl

@[simp] theorem throw_run (e : ε) (s : σ) : (throw e : Op ε σ α).run s = (.error e, s) := rfl

theorem bind_run (x : Op ε σ α) (f : α → Op ε σ β) (s : σ) :
    (x >>= f).run s = match x.run s with
      | (.ok a, s') => (f a).run s'
      | (.error e, s') => (.error e, s') := rfl

theorem bind_ok {a : α} (h : x.run s = (.ok a, s')) : (x >>= f).run s = (f a).run s' := by
  rw [bind_run, h]

theorem bind_error {e : ε} (h : x.run s = (.error e, s')) : (x >>= f).run s = (.error e, s') := by
  rw [bind_run, h]

@[simp] theorem get_bind (f : σ → Op ε σ β) (s : σ) : ((get : Op ε σ σ) >>= f).run s = (f s).run s := rfl

@[simp] theorem modify_bind (g : σ → σ) (f : PUnit → Op ε σ β) (s : σ) :
    ((modify g : Op ε σ PUnit) >>= f).run s = (f ⟨⟩).run (g s) := rfl

@[simp] theorem pure_bind_run (a : α) (f : α → Op ε σ β) (s : σ) :
    ((pure a : Op ε σ α) >>= f).run s = (f a).run s := rfl

@[simp] theorem throw_bind (e : ε) (f : α → Op ε σ β) (s : σ) :
    ((throw e : Op ε σ α) >>= f).run s = (.error e, s) := rfl

instance : LawfulMonad (Op ε σ) := LawfulMonad.mk' (Op ε σ)
  (fun x => congrArg Op.mk (funext fun s => by
    change (match x.run s with | (.ok a, s') => _ | (.error e, s') => _) = x.run s
    split <;> simp_all))
  (fun _ _ => rfl)
  (fun x f g => congrArg Op.mk (funext fun s => by
    rw [bind_run]
    cases x.run s with
    | mk outcome s' => cases outcome <;> rfl))

section throwIf

variable {condition : Prop} [Decidable condition] {e : ε}

theorem throwIf_run_pos (h : condition) (s : σ) : (throwIf condition e : Op ε σ PUnit).run s = (.error e, s) := by
  rw [throwIf, if_pos h]
  rfl

theorem throwIf_run_neg (h : ¬ condition) (s : σ) : (throwIf condition e : Op ε σ PUnit).run s = (.ok ⟨⟩, s) := by
  rw [throwIf, if_neg h]
  rfl

@[simp] theorem throwIf_state (s : σ) : ((throwIf condition e : Op ε σ PUnit).run s).2 = s := by
  unfold throwIf
  split <;> rfl

theorem throwIf_bind_pos (h : condition) (f : PUnit → Op ε σ β) (s : σ) :
    ((throwIf condition e : Op ε σ PUnit) >>= f).run s = (.error e, s) := bind_error (throwIf_run_pos h s)

theorem throwIf_bind_neg (h : ¬ condition) (f : PUnit → Op ε σ β) (s : σ) :
    ((throwIf condition e : Op ε σ PUnit) >>= f).run s = (f ⟨⟩).run s := bind_ok (throwIf_run_neg h s)

end throwIf

/-- A sequence that returned, taken apart. -/
theorem of_bind_ok {s t : σ} {b : β} (h : (x >>= f).run s = (.ok b, t)) :
    ∃ a s', x.run s = (.ok a, s') ∧ (f a).run s' = (.ok b, t) := by
  rw [bind_run] at h
  cases hx : x.run s with
  | mk outcome s' =>
    cases outcome with
    | ok a => exact ⟨a, s', rfl, by simpa only [hx] using h⟩
    | error e => simp [hx] at h

theorem of_throwIf_bind_ok {condition : Prop} [Decidable condition] {e : ε} {f : PUnit → Op ε σ β} {s t : σ} {b : β}
    (h : ((throwIf condition e : Op ε σ PUnit) >>= f).run s = (.ok b, t)) : ¬ condition ∧ (f ⟨⟩).run s = (.ok b, t) := by
  by_cases hc : condition
  · rw [throwIf_bind_pos hc] at h
    cases (Prod.mk.inj h).1
  · rw [throwIf_bind_neg hc] at h
    exact ⟨hc, h⟩

theorem tryCatch_ok {a : α} (h : x.run s = (.ok a, s')) : (tryCatch x handler).run s = (.ok a, s') := by
  change (match x.run s with | (.ok a, s') => _ | (.error e, s') => _) = _
  rw [h]

theorem tryCatch_error {e : ε} (h : x.run s = (.error e, s')) : (tryCatch x handler).run s = (handler e).run s' := by
  change (match x.run s with | (.ok a, s') => _ | (.error e, s') => _) = _
  rw [h]

/-! ## What an operation can do to the state -/

/-- However the operation ends, the state it leaves is related to the one it found. -/
def Within (R : σ → σ → Prop) (x : Op ε σ α) : Prop := ∀ s, R s (x.run s).2

variable {R : σ → σ → Prop} {body : β → Op ε σ PUnit}

theorem within_pure (hrefl : ∀ s, R s s) (a : α) : Within R (pure a : Op ε σ α) := fun s => hrefl s

theorem within_throw (hrefl : ∀ s, R s s) (e : ε) : Within R (throw e : Op ε σ α) := fun s => hrefl s

theorem within_modify {f : σ → σ} (h : ∀ s, R s (f s)) : Within R (modify f : Op ε σ PUnit) := h

theorem within_throwIf (hrefl : ∀ s, R s s) (condition : Prop) [Decidable condition] (e : ε) :
    Within R (throwIf condition e : Op ε σ PUnit) := by
  intro s
  rw [throwIf_state]
  exact hrefl s

/-- The first operation from the state at hand, the rest from wherever it leads. -/
theorem related_bind (htrans : ∀ a b c, R a b → R b c → R a c) {s : σ} (hx : R s (x.run s).2) (hf : ∀ a, Within R (f a)) :
    R s ((x >>= f).run s).2 := by
  rw [bind_run]
  cases h : x.run s with
  | mk outcome s' =>
    rw [h] at hx
    cases outcome with
    | ok a => exact htrans _ _ _ hx (hf a s')
    | error e => exact hx

theorem Within.bind (htrans : ∀ a b c, R a b → R b c → R a c) (hx : Within R x) (hf : ∀ a, Within R (f a)) :
    Within R (x >>= f) := fun s => related_bind htrans (hx s) hf

/-- After a read the rest of the operation is run on the state it was read from. -/
theorem within_get_bind {f : σ → Op ε σ β} (h : ∀ s, R s ((f s).run s).2) : Within R (get >>= f) := h

theorem Within.tryCatch (htrans : ∀ a b c, R a b → R b c → R a c) (hx : Within R x) (hhandler : ∀ e, Within R (handler e)) :
    Within R (tryCatch x handler) := by
  intro s
  have hfirst := hx s
  cases h : x.run s with
  | mk outcome s' =>
    rw [h] at hfirst
    cases outcome with
    | ok a => rwa [tryCatch_ok h]
    | error e =>
      rw [tryCatch_error h]
      exact htrans _ _ _ hfirst (hhandler e s')

theorem Within.ite {condition : Prop} [Decidable condition] {x y : Op ε σ α} (hx : condition → Within R x)
    (hy : ¬ condition → Within R y) : Within R (if condition then x else y) := by
  split
  · exact hx ‹_›
  · exact hy ‹_›

theorem within_forM (hrefl : ∀ s, R s s) (htrans : ∀ a b c, R a b → R b c → R a c) (items : List β)
    (hbody : ∀ b ∈ items, Within R (body b)) : Within R (items.forM body) := by
  induction items with
  | nil => exact within_pure hrefl _
  | cons b rest ih =>
    refine Within.bind htrans (hbody b List.mem_cons_self) fun _ => ?_
    exact ih fun c hc => hbody c (List.mem_cons_of_mem _ hc)

theorem forM_cons_ok {b : β} {rest : List β} (h : (body b).run s = (.ok ⟨⟩, s')) :
    ((b :: rest).forM body).run s = (rest.forM body).run s' := bind_ok h

theorem forM_cons_error {b : β} {rest : List β} {e : ε} (h : (body b).run s = (.error e, s')) :
    ((b :: rest).forM body).run s = (.error e, s') := bind_error h

/-- A loop over two lists that has not thrown. -/
theorem of_forM_append {first rest : List β} {s t : σ} (h : ((first ++ rest).forM body).run s = (.ok ⟨⟩, t)) :
    ∃ m, (first.forM body).run s = (.ok ⟨⟩, m) ∧ (rest.forM body).run m = (.ok ⟨⟩, t) := by
  induction first generalizing s with
  | nil => exact ⟨s, rfl, h⟩
  | cons b first ih =>
    obtain ⟨_, s', hfirst, hrest⟩ := of_bind_ok h
    obtain ⟨m, hm, ht⟩ := ih hrest
    exact ⟨m, by rw [forM_cons_ok hfirst, hm], ht⟩

end Op

end Ddb.Lib
