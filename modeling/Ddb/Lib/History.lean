import Mathlib.Data.List.Infix
import Mathlib.Data.List.Pairwise

/-!
# Histories of a versioned store

A store holds a value and a version number for each key. A write is logged with the image before it and the image after it
and gets the next log sequence number as its version; it may be undone, which brings the version before it back. The
history keeps every write with a mark that says whether it is still in effect.

Writers are kept apart: a write is made only on top of writes of the same owner, or of owners that have committed. Then the
writes of the owners that committed are in effect, form the beginning of all that is in effect for their key, and each was
made on what the one before it had left. So the last committed value can be had in two ways: by patching the first image
with the differences of the committed writes one after the other, or, when every logged write is of a committed owner, by
repeating those writes that are newer than what a stored copy carries.
-/

namespace Ddb.Lib

/-- A logged write. -/
structure Logged (K V : Type*) where
  lsn : Nat
  owner : Nat
  key : K
  before : V
  after : V
  /-- The version before. -/
  previous : Nat
  /-- Not undone. -/
  live : Bool

namespace Logged

variable {K V : Type*}

def undone (e : Logged K V) : Logged K V := { e with live := false }

/-- Key, value and version after the write. -/
def version (e : Logged K V) : V × Nat := (e.after, e.lsn)

end Logged

namespace History

variable {K V : Type*} {entries : List (Logged K V)} {e : Logged K V} {start : V × Nat} {copy : V × Nat}

/-- What a list of writes leaves of a version. -/
def latest (start : V × Nat) (entries : List (Logged K V)) : V × Nat := entries.foldl (fun _ e => e.version) start

/-- Each write was made on the version the one before it had left. -/
def Chained : V × Nat → List (Logged K V) → Prop
  | _, [] => True
  | start, e :: rest => (e.before, e.previous) = start ∧ Chained e.version rest

@[simp] theorem latest_nil (start : V × Nat) : latest start ([] : List (Logged K V)) = start := rfl

@[simp] theorem latest_append (start : V × Nat) (entries : List (Logged K V)) (e : Logged K V) :
    latest start (entries ++ [e]) = e.version := by
  rw [latest, List.foldl_append]
  rfl

theorem latest_cons (start : V × Nat) (e : Logged K V) (rest : List (Logged K V)) :
    latest start (e :: rest) = latest e.version rest := rfl

theorem latest_eq (start : V × Nat) (entries : List (Logged K V)) :
    latest start entries = entries.getLast?.elim start Logged.version := by
  induction entries using List.reverseRecOn with
  | nil => rfl
  | append_singleton rest e ih => rw [latest_append, List.getLast?_concat]; rfl

theorem chained_append {first second : List (Logged K V)} :
    Chained start (first ++ second) ↔ Chained start first ∧ Chained (latest start first) second := by
  induction first generalizing start with
  | nil => simp [Chained]
  | cons e rest ih => rw [List.cons_append, Chained, Chained, ih, and_assoc, latest_cons]

/-- Taking the last write back. -/
theorem Chained.undo {rest : List (Logged K V)} (h : Chained start (rest ++ [e])) :
    Chained start rest ∧ (e.before, e.previous) = latest start rest := by
  obtain ⟨hrest, hlast, -⟩ := chained_append.mp h
  exact ⟨hrest, hlast⟩

theorem Chained.of_beginning {first entries : List (Logged K V)} (h : Chained start entries) (hpre : first <+: entries) :
    Chained start first := by
  obtain ⟨rest, rfl⟩ := hpre
  exact (chained_append.mp h).1

/-- Patching with the differences of a chain leads from its start to its end. -/
theorem Chained.patch (h : Chained start entries) {patch : V → V → V → V}
    (hpatch : ∀ before after, patch before after before = after) :
    entries.foldl (fun image e => patch e.before e.after image) start.1 = (latest start entries).1 := by
  induction entries generalizing start with
  | nil => rfl
  | cons e rest ih =>
    obtain ⟨hstart, hrest⟩ := h
    rw [List.foldl_cons, latest_cons, ← ih hrest, ← hstart, hpatch]
    rfl

/-! ## Repeating what is newer -/

/-- One write, repeated unless the copy has it already. -/
def redone (copy : V × Nat) (e : Logged K V) : V × Nat := if e.lsn ≤ copy.2 then copy else e.version

theorem foldl_redone_of_le (h : ∀ e ∈ entries, e.lsn ≤ copy.2) : entries.foldl redone copy = copy := by
  induction entries with
  | nil => rfl
  | cons e rest ih =>
    obtain ⟨he, hrest⟩ := List.forall_mem_cons.mp h
    rw [List.foldl_cons, redone, if_pos he, ih hrest]

theorem latest_lt (hcopy : copy.2 < e.lsn) (h : ∀ d ∈ entries, d.lsn < e.lsn) : (latest copy entries).2 < e.lsn := by
  induction entries using List.reverseRecOn with
  | nil => exact hcopy
  | append_singleton rest d ih =>
    rw [latest_append]
    exact h d (by simp)

/-- A copy with no version, or with one that the writes themselves made, ends up as the last of them left it. -/
theorem foldl_redone (hpos : ∀ e ∈ entries, 0 < e.lsn) (hincreasing : entries.Pairwise fun d e => d.lsn < e.lsn)
    (hcopy : copy.2 = 0 ∨ ∃ e ∈ entries, copy = e.version) : entries.foldl redone copy = latest copy entries := by
  induction entries using List.reverseRecOn with
  | nil => rfl
  | append_singleton rest e ih =>
    obtain ⟨hrest, -, hbefore⟩ := List.pairwise_append.mp hincreasing
    have hlt : ∀ d ∈ rest, d.lsn < e.lsn := fun d hd => hbefore d hd e (List.mem_singleton_self e)
    have hpos' : ∀ d ∈ rest, 0 < d.lsn := fun d hd => hpos d (by simp [hd])
    rw [List.foldl_append, latest_append]
    by_cases hlast : copy = e.version
    · -- The copy is the last write already.
      have hskip : rest.foldl redone copy = copy := by
        apply foldl_redone_of_le
        intro d hd
        rw [hlast]
        exact (hlt d hd).le
      rw [hskip, List.foldl_cons, List.foldl_nil, redone, hlast, ite_self]
    · have hcopy' : copy.2 = 0 ∨ ∃ d ∈ rest, copy = d.version := by
        rcases hcopy with hzero | ⟨d, hd, hversion⟩
        · exact Or.inl hzero
        · rcases List.mem_append.mp hd with hd | hd
          · exact Or.inr ⟨d, hd, hversion⟩
          · exact absurd (List.mem_singleton.mp hd ▸ hversion) hlast
      have hold : copy.2 < e.lsn := by
        rcases hcopy' with hzero | ⟨d, hd, rfl⟩
        · rw [hzero]
          exact hpos e (by simp)
        · exact hlt d hd
      rw [ih hpos' hrest hcopy', List.foldl_cons, List.foldl_nil, redone, if_neg (latest_lt hold hlt).not_ge]

/-! ## A whole history -/

variable [DecidableEq K] {base : K → V} {committed : Nat → Nat → Prop} {history : List (Logged K V)} {k : K}

/-- The writes of a key. -/
def on (k : K) (history : List (Logged K V)) : List (Logged K V) := history.filter fun e => e.key = k

/-- The writes of a key that are in effect. -/
def liveOn (k : K) (history : List (Logged K V)) : List (Logged K V) := history.filter fun e => e.key = k ∧ e.live = true

/-- What the store holds. -/
def current (base : K → V) (k : K) (history : List (Logged K V)) : V × Nat := latest (base k, 0) (liveOn k history)

/-- `committed o n` says that the commit of `o` was logged as `n`. -/
structure Sound (base : K → V) (committed : Nat → Nat → Prop) (history : List (Logged K V)) : Prop where
  positive : ∀ e ∈ history, 0 < e.lsn
  increasing : history.Pairwise fun d e => d.lsn < e.lsn
  first : ∀ k e, (on k history).head? = some e → e.before = base k
  chained : ∀ k, Chained (base k, 0) (liveOn k history)
  separate : history.Pairwise fun d e => d.key = e.key → d.live = true → e.live = true →
    d.owner = e.owner ∨ ∃ n < e.lsn, committed d.owner n
  kept : ∀ e ∈ history, ∀ n, committed e.owner n → e.live = true

theorem sound_nil : Sound base committed ([] : List (Logged K V)) :=
  ⟨by simp, .nil, by simp [on], fun _ => trivial, .nil, by simp⟩

theorem on_append (first second : List (Logged K V)) : on k (first ++ second) = on k first ++ on k second :=
  List.filter_append _ _

theorem liveOn_append (first second : List (Logged K V)) :
    liveOn k (first ++ second) = liveOn k first ++ liveOn k second := List.filter_append _ _

theorem mem_liveOn : e ∈ liveOn k history ↔ e ∈ history ∧ e.key = k ∧ e.live = true := by
  simp [liveOn]

theorem mem_on : e ∈ on k history ↔ e ∈ history ∧ e.key = k := by
  simp [on]

theorem liveOn_eq_nil_of_on (h : on k history = []) : liveOn k history = [] := by
  rw [List.eq_nil_iff_forall_not_mem] at h ⊢
  exact fun e he => h e (mem_on.mpr ⟨(mem_liveOn.mp he).1, (mem_liveOn.mp he).2.1⟩)

/-- A new write on top of what is in effect. -/
theorem Sound.push (h : Sound base committed history) (hlive : e.live = true) (hnew : ∀ d ∈ history, d.lsn < e.lsn)
    (hpos : 0 < e.lsn) (hcurrent : (e.before, e.previous) = current base e.key history)
    (hapart : ∀ d ∈ history, d.key = e.key → d.live = true → d.owner = e.owner ∨ ∃ n < e.lsn, committed d.owner n) :
    Sound base committed (history ++ [e]) := by
  refine ⟨?_, ?_, ?_, ?_, ?_, ?_⟩
  · intro d hd
    rcases List.mem_append.mp hd with hd | hd
    · exact h.positive d hd
    · exact List.mem_singleton.mp hd ▸ hpos
  · refine List.pairwise_append.mpr ⟨h.increasing, List.pairwise_singleton _ _, fun d hd e' he' => ?_⟩
    exact List.mem_singleton.mp he' ▸ hnew d hd
  · intro k d hd
    rw [on_append] at hd
    cases hon : on k history with
    | cons first rest =>
      rw [hon] at hd
      exact h.first k d (by rw [hon]; exact hd)
    | nil =>
      rw [hon, List.nil_append] at hd
      have hmem := List.mem_of_mem_head? hd
      obtain ⟨hd, hkey⟩ := mem_on.mp hmem
      obtain rfl := List.mem_singleton.mp hd
      subst hkey
      rw [current, liveOn_eq_nil_of_on hon] at hcurrent
      exact (Prod.mk.inj hcurrent).1
  · intro k
    rw [liveOn_append, chained_append]
    refine ⟨h.chained k, ?_⟩
    by_cases hkey : e.key = k
    · subst hkey
      have honly : liveOn e.key [e] = [e] := by simp [liveOn, hlive]
      rw [honly]
      exact ⟨hcurrent, trivial⟩
    · have hnone : liveOn k [e] = [] := by simp [liveOn, hkey]
      rw [hnone]
      trivial
  · refine List.pairwise_append.mpr ⟨h.separate, List.pairwise_singleton _ _, fun d hd e' he' => ?_⟩
    obtain rfl := List.mem_singleton.mp he'
    exact fun hkey hdlive _ => hapart d hd hkey hdlive
  · intro d hd n hn
    rcases List.mem_append.mp hd with hd | hd
    · exact h.kept d hd n hn
    · exact List.mem_singleton.mp hd ▸ hlive

theorem current_push (hlive : e.live = true) :
    current base k (history ++ [e]) = if e.key = k then e.version else current base k history := by
  rw [current, liveOn_append]
  by_cases hkey : e.key = k
  · have honly : liveOn k [e] = [e] := by simp [liveOn, hlive, hkey]
    rw [honly, latest_append, if_pos hkey]
  · have hnone : liveOn k [e] = [] := by simp [liveOn, hkey]
    rw [hnone, List.append_nil, if_neg hkey]
    rfl

section Undo

variable {older newer : List (Logged K V)} {e : Logged K V}

theorem liveOn_undone : liveOn k (older ++ e.undone :: newer) = liveOn k older ++ liveOn k newer := by
  simp [liveOn, Logged.undone]

/-- Behind the last write in effect of an owner that has not committed, nothing is in effect for its key. -/
theorem Sound.liveOn_newer (h : Sound base committed (older ++ e :: newer)) (hlive : e.live = true)
    (hopen : ∀ n, ¬ committed e.owner n) (hlast : ∀ d ∈ newer, d.owner = e.owner → d.live = false) :
    liveOn e.key newer = [] := by
  rw [List.eq_nil_iff_forall_not_mem]
  intro d hd
  obtain ⟨hmem, hkey, hdlive⟩ := mem_liveOn.mp hd
  have hapart := (List.pairwise_cons.mp (List.pairwise_append.mp h.separate).2.1).1 d hmem hkey.symm hlive hdlive
  rcases hapart with howner | ⟨n, -, hn⟩
  · rw [hlast d hmem howner.symm] at hdlive
    cases hdlive
  · exact hopen n hn

/-- Undoing the last write in effect of an owner that has not committed. -/
theorem Sound.undo (h : Sound base committed (older ++ e :: newer)) (hlive : e.live = true)
    (hopen : ∀ n, ¬ committed e.owner n) (hlast : ∀ d ∈ newer, d.owner = e.owner → d.live = false) :
    Sound base committed (older ++ e.undone :: newer) := by
  have hnone := h.liveOn_newer hlive hopen hlast
  -- The list with the mark taken away: what is said about all writes, or all pairs, but not about the mark, stays.
  obtain ⟨hinc, hinc', hbetween⟩ := List.pairwise_append.mp h.increasing
  obtain ⟨hhead, htail⟩ := List.pairwise_cons.mp hinc'
  obtain ⟨hsep, hsep', hacross⟩ := List.pairwise_append.mp h.separate
  obtain ⟨-, hseptail⟩ := List.pairwise_cons.mp hsep'
  refine ⟨?_, ?_, ?_, ?_, ?_, ?_⟩
  · intro d hd
    rcases List.mem_append.mp hd with hd | hd
    · exact h.positive d (by simp [hd])
    · rcases List.mem_cons.mp hd with rfl | hd
      · exact h.positive e (by simp)
      · exact h.positive d (by simp [hd])
  · refine List.pairwise_append.mpr ⟨hinc, List.pairwise_cons.mpr ⟨hhead, htail⟩, fun d hd f hf => ?_⟩
    rcases List.mem_cons.mp hf with rfl | hf
    · exact hbetween d hd e List.mem_cons_self
    · exact hbetween d hd f (List.mem_cons_of_mem _ hf)
  · intro k d hd
    have honce : on k (older ++ e.undone :: newer) = on k older ++ (on k [e.undone] ++ on k newer) := by
      rw [on_append, ← List.singleton_append, on_append]
    have honce' : on k (older ++ e :: newer) = on k older ++ (on k [e] ++ on k newer) := by
      rw [on_append, ← List.singleton_append, on_append]
    have hfirst := h.first k
    rw [honce'] at hfirst
    rw [honce] at hd
    cases hon : on k older with
    | cons first rest =>
      rw [hon] at hd hfirst
      exact hfirst d hd
    | nil =>
      rw [hon, List.nil_append] at hd hfirst
      by_cases hkey : e.key = k
      · have hself : on k [e.undone] = [e.undone] := by simp [on, Logged.undone, hkey]
        have hself' : on k [e] = [e] := by simp [on, hkey]
        rw [hself] at hd
        rw [hself'] at hfirst
        obtain rfl : e.undone = d := by simpa using hd
        exact hfirst e rfl
      · have hself : on k [e.undone] = [] := by simp [on, Logged.undone, hkey]
        have hself' : on k [e] = [] := by simp [on, hkey]
        rw [hself] at hd
        rw [hself'] at hfirst
        exact hfirst d hd
  · intro k
    rw [liveOn_undone]
    have hchained := h.chained k
    rw [liveOn_append, ← List.singleton_append, liveOn_append] at hchained
    by_cases hkey : e.key = k
    · subst hkey
      rw [hnone, List.append_nil]
      exact (chained_append.mp hchained).1
    · have hself : liveOn k [e] = [] := by simp [liveOn, hkey]
      rwa [hself, List.nil_append] at hchained
  · refine List.pairwise_append.mpr ⟨hsep, List.pairwise_cons.mpr ⟨?_, hseptail⟩, fun d hd f hf => ?_⟩
    · intro f _ _ hfalse
      cases hfalse
    · rcases List.mem_cons.mp hf with rfl | hf
      · intro _ _ hfalse
        cases hfalse
      · exact hacross d hd f (List.mem_cons_of_mem _ hf)
  · intro d hd n hn
    rcases List.mem_append.mp hd with hd | hd
    · exact h.kept d (by simp [hd]) n hn
    · rcases List.mem_cons.mp hd with rfl | hd
      · exact absurd hn (hopen n)
      · exact h.kept d (by simp [hd]) n hn

theorem Sound.current_undo (h : Sound base committed (older ++ e :: newer)) (hlive : e.live = true)
    (hopen : ∀ n, ¬ committed e.owner n) (hlast : ∀ d ∈ newer, d.owner = e.owner → d.live = false) (k : K) :
    current base k (older ++ e.undone :: newer) =
      if e.key = k then (e.before, e.previous) else current base k (older ++ e :: newer) := by
  have hnone := h.liveOn_newer hlive hopen hlast
  rw [current, liveOn_undone]
  by_cases hkey : e.key = k
  · subst hkey
    have hself : liveOn e.key [e] = [e] := by simp [liveOn, hlive]
    have hchained := h.chained e.key
    rw [liveOn_append, ← List.singleton_append, liveOn_append, hnone, List.append_nil, hself] at hchained
    rw [hnone, List.append_nil, if_pos rfl, hchained.undo.2]
  · have hself : liveOn k [e] = [] := by simp [liveOn, hkey]
    rw [if_neg hkey, current, liveOn_append older, ← List.singleton_append, liveOn_append, hself, List.nil_append]

end Undo

/-- A commit of an owner none of whose writes has been undone. -/
theorem Sound.commit (h : Sound base committed history) {committed' : Nat → Nat → Prop}
    (hmore : ∀ o n, committed o n → committed' o n)
    (hkept : ∀ o n, committed' o n → committed o n ∨ ∀ e ∈ history, e.owner = o → e.live = true) :
    Sound base committed' history := by
  refine ⟨h.positive, h.increasing, h.first, h.chained, ?_, ?_⟩
  · refine h.separate.imp fun hpair hkey hd he => ?_
    rcases hpair hkey hd he with howner | ⟨n, hlt, hn⟩
    · exact Or.inl howner
    · exact Or.inr ⟨n, hlt, hmore _ n hn⟩
  · intro e he n hn
    rcases hkept e.owner n hn with hold | hall
    · exact h.kept e he n hold
    · exact hall e he rfl

/-- Before its first write, a key may be given another base. -/
theorem Sound.rebase (h : Sound base committed history) {base' : K → V}
    (hbase : ∀ k, on k history ≠ [] → base' k = base k) : Sound base' committed history := by
  refine ⟨h.positive, h.increasing, ?_, ?_, h.separate, h.kept⟩
  · intro k e he
    rw [hbase k (List.ne_nil_of_mem (List.mem_of_mem_head? he))]
    exact h.first k e he
  · intro k
    by_cases hon : on k history = []
    · rw [liveOn_eq_nil_of_on hon]
      trivial
    · rw [hbase k hon]
      exact h.chained k

theorem current_of_on_eq_nil (hon : on k history = []) : current base k history = (base k, 0) := by
  rw [current, liveOn_eq_nil_of_on hon, latest_nil]

theorem current_rebase {base' : K → V} (hbase : base' k = base k) : current base' k history = current base k history := by
  rw [current, current, hbase]

/-! ## After a crash -/

theorem filter_beginning_of_pairwise {α : Type*} {p : α → Bool} {l : List α}
    (h : l.Pairwise fun a b => p b = true → p a = true) : l.filter p <+: l := by
  induction l with
  | nil => exact List.nil_prefix
  | cons a rest ih =>
    obtain ⟨hhead, hrest⟩ := List.pairwise_cons.mp h
    cases ha : p a with
    | true =>
      rw [List.filter_cons_of_pos ha]
      exact List.cons_prefix_cons.mpr ⟨rfl, ih hrest⟩
    | false =>
      have hnone : (a :: rest).filter p = [] := by
        rw [List.filter_eq_nil_iff]
        intro b hb hpb
        rcases List.mem_cons.mp hb with rfl | hb
        · rw [ha] at hpb
          cases hpb
        · rw [hhead b hb hpb] at ha
          cases ha
      rw [hnone]
      exact List.nil_prefix

/-- A copy of a key that may be on the disk: it has no version, or it is what a write with a durable record left. -/
def Stored (durable : Nat) (k : K) (history : List (Logged K V)) (copy : V × Nat) : Prop :=
  copy.2 = 0 ∨ ∃ e ∈ history, e.key = k ∧ copy = e.version ∧ e.lsn ≤ durable

omit [DecidableEq K] in
theorem Stored.mono {durable durable' : Nat} (h : Stored durable k history copy) (hle : durable ≤ durable')
    {history' : List (Logged K V)} (hmem : ∀ e ∈ history, ∃ e' ∈ history', e'.key = e.key ∧ e'.version = e.version) :
    Stored durable' k history' copy := by
  rcases h with hzero | ⟨e, he, hkey, hcopy, hlsn⟩
  · exact Or.inl hzero
  · obtain ⟨e', he', hkey', hversion⟩ := hmem e he
    have hlsn' : e'.lsn = e.lsn := congrArg Prod.snd hversion
    exact Or.inr ⟨e', he', hkey'.trans hkey, hcopy.trans hversion.symm, by omega⟩

/-- What the store holds may be written back once its record is durable. -/
theorem stored_current {durable : Nat} (h : (current base k history).2 = 0 ∨ (current base k history).2 ≤ durable) :
    Stored durable k history (current base k history) := by
  rcases List.eq_nil_or_concat (liveOn k history) with hnil | ⟨rest, e, hlive⟩
  · left
    rw [current, hnil, latest_nil]
  · have hcurrent : current base k history = e.version := by rw [current, hlive, List.concat_eq_append, latest_append]
    have hmem : e ∈ liveOn k history := by rw [hlive]; simp
    obtain ⟨he, hkey, -⟩ := mem_liveOn.mp hmem
    rcases h with hzero | hle
    · exact Or.inl hzero
    · rw [hcurrent] at hle ⊢
      exact Or.inr ⟨e, he, hkey, rfl, hle⟩

section Crash

variable {surviving : List (Logged K V)} {won : Nat → Bool}

/-- The writes of the winners, those whose commit survived. -/
def winners (won : Nat → Bool) (k : K) (surviving : List (Logged K V)) : List (Logged K V) :=
  (on k surviving).filter fun e => won e.owner

/-- The writes of the winners of a key form a chain from its base. -/
theorem Sound.chained_winners (h : Sound base committed history) (hpre : surviving <+: history)
    (hwon : ∀ o, won o = true → ∃ n, committed o n)
    (hcut : ∀ e ∈ surviving, ∀ o, ∀ n < e.lsn, committed o n → won o = true) (k : K) :
    Chained (base k, 0) (winners won k surviving) := by
  -- The winners are in effect, so they are found among the writes in effect.
  have hlive : winners won k surviving = (liveOn k surviving).filter fun e => won e.owner := by
    rw [winners, on, liveOn, List.filter_filter, List.filter_filter]
    refine List.filter_congr fun e he => ?_
    have hkept : won e.owner = true → e.live = true := by
      intro hw
      obtain ⟨n, hn⟩ := hwon e.owner hw
      exact h.kept e (hpre.subset he) n hn
    by_cases hw : won e.owner = true
    · simp [hw, hkept hw]
    · simp [hw]
  have hfirst : winners won k surviving <+: liveOn k surviving := by
    rw [hlive]
    apply filter_beginning_of_pairwise
    have hseparate : surviving.Pairwise fun d e => d.key = e.key → d.live = true → e.live = true →
        d.owner = e.owner ∨ ∃ n < e.lsn, committed d.owner n := h.separate.sublist hpre.sublist
    have hall := (List.pairwise_filter (p := fun e : Logged K V => e.key = k ∧ e.live = true)).mpr
      (hseparate.imp_of_mem (S := fun d e => decide (d.key = k ∧ d.live = true) = true →
        decide (e.key = k ∧ e.live = true) = true → won e.owner = true → won d.owner = true) ?_)
    · exact hall
    · intro d e _ he hpair hd' he' hw
      obtain ⟨hdkey, hdlive⟩ := of_decide_eq_true hd'
      obtain ⟨hekey, helive⟩ := of_decide_eq_true he'
      rcases hpair (hdkey.trans hekey.symm) hdlive helive with howner | ⟨n, hlt, hn⟩
      · rwa [howner]
      · exact hcut e he d.owner n hlt hn
  refine (h.chained k).of_beginning (hfirst.trans ?_)
  exact hpre.filter _

/-- Patching the base with the winners' differences gives the last of their values. -/
theorem Sound.patch_winners (h : Sound base committed history) (hpre : surviving <+: history)
    (hwon : ∀ o, won o = true → ∃ n, committed o n)
    (hcut : ∀ e ∈ surviving, ∀ o, ∀ n < e.lsn, committed o n → won o = true) {patch : V → V → V → V}
    (hpatch : ∀ before after, patch before after before = after) (k : K) :
    (winners won k surviving).foldl (fun image e => patch e.before e.after image) (base k) =
      (latest (base k, 0) (winners won k surviving)).1 :=
  (h.chained_winners hpre hwon hcut k).patch hpatch

/-- Where all the writes are winners', repeating them on a stored copy gives the last of their values. -/
theorem Sound.redo_winners (h : Sound base committed history) (hpre : surviving <+: history) {durable : Nat}
    {copy : V × Nat} (hstored : Stored durable k history copy)
    (hdurable : ∀ e ∈ history, e.lsn ≤ durable → e ∈ surviving) (hall : ∀ e ∈ on k surviving, won e.owner = true) :
    (winners won k surviving).foldl redone copy = latest copy (winners won k surviving) := by
  have hsame : winners won k surviving = on k surviving := List.filter_eq_self.mpr hall
  rw [hsame]
  refine foldl_redone (fun e he => ?_) ?_ ?_
  · exact h.positive e (hpre.subset (mem_on.mp he).1)
  · exact (h.increasing.sublist hpre.sublist).sublist List.filter_sublist
  · rcases hstored with hzero | ⟨e, he, hkey, hcopy, hle⟩
    · exact Or.inl hzero
    · exact Or.inr ⟨e, mem_on.mpr ⟨hdurable e he hle, hkey⟩, hcopy⟩

end Crash

end History

end Ddb.Lib
