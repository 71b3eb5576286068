/-
# Interleaved programs

Many programs (`CommandProgram.lean`) work on one shared state.  A `Pool` holds what
is left of each program and the state; `Pool.step` lets the chosen program execute
its next command, and does nothing if that program has ended.  A schedule is the
list of the programs chosen, so the runs of `GuardedRun.lean` over `Pool.step` are
all the interleavings at the granularity of single commands.

An `Outline` describes a program that, on its way to a result, issues at most one command of
a special kind, its *mark*: before the mark it only issues quiet commands, and whether it has
passed the mark decides which results it can end with.  A program `Seeks` a grant if one of the answers
decides whether it will issue its mark.  `Outlined.step_cases` says what a step
of a pool of outlined programs can do; the invariants of such pools follow from it by
induction over the schedule.
-/
import DoudizhuBackend.CommandProgram
import DoudizhuBackend.GuardedRun
import Mathlib.Data.Finset.Insert

/-- What is left of the programs `ι`, and the state they share. -/
structure Pool (ι : Type) (C : Type) (R : C → Type) (α S : Type) where
  thread : ι → Prog C R α
  store : S

namespace Pool

variable {ι C : Type} {R : C → Type} {α S : Type} [DecidableEq ι]

/-- Program `i` executes its next command. -/
def step (exec : (c : C) → S → R c × S) (cfg : Pool ι C R α S) (i : ι) : Pool ι C R α S :=
  match cfg.thread i with
  | .ret _ => cfg
  | .op c k =>
      { thread := Function.update cfg.thread i (k (exec c cfg.store).1)
        store := (exec c cfg.store).2 }

variable {exec : (c : C) → S → R c × S} {cfg : Pool ι C R α S} {i : ι}

theorem step_of_ret {a : α} (h : cfg.thread i = .ret a) : cfg.step exec i = cfg := by
  unfold step
  rw [h]

theorem step_of_op {c : C} {k : R c → Prog C R α} (h : cfg.thread i = .op c k) :
    cfg.step exec i =
      { thread := Function.update cfg.thread i (k (exec c cfg.store).1)
        store := (exec c cfg.store).2 } := by
  unfold step
  rw [h]

theorem step_thread_self {c : C} {k : R c → Prog C R α} (h : cfg.thread i = .op c k) :
    (cfg.step exec i).thread i = k (exec c cfg.store).1 := by
  rw [step_of_op h]
  exact Function.update_self _ _ _

theorem step_store {c : C} {k : R c → Prog C R α} (h : cfg.thread i = .op c k) :
    (cfg.step exec i).store = (exec c cfg.store).2 := by
  rw [step_of_op h]

/-- **What a step can do**: the chosen program has ended and nothing changes, or it
issues its next command, the state changes by that command, and only that program
moves on. -/
theorem step_cases (exec : (c : C) → S → R c × S) (cfg : Pool ι C R α S) (i : ι) :
    (∃ a, cfg.thread i = .ret a ∧ cfg.step exec i = cfg) ∨
    (∃ c k, cfg.thread i = .op c k ∧
      (cfg.step exec i).thread = Function.update cfg.thread i (k (exec c cfg.store).1) ∧
      (cfg.step exec i).store = (exec c cfg.store).2) := by
  cases h : cfg.thread i with
  | ret a => exact Or.inl ⟨a, rfl, step_of_ret h⟩
  | op c k =>
      refine Or.inr ⟨c, k, rfl, ?_, ?_⟩
      · rw [step_of_op h]
      · rw [step_of_op h]

/-- The other programs do not move. -/
theorem step_thread_of_ne {j : ι} (h : j ≠ i) :
    (cfg.step exec i).thread j = cfg.thread j := by
  rcases step_cases exec cfg i with ⟨a, -, hstep⟩ | ⟨c, k, -, hthread, -⟩
  · rw [hstep]
  · rw [hthread, Function.update_of_ne h]

end Pool

/-! ## Outlines -/

/-- An outline of a program.  `ok c r` restricts the answers `r` to a command `c` that the
program has to be checked for; `quiet` and `after` are the commands allowed before and after
the mark, `refused` and `done` the results without and with it. -/
structure Outline (C : Type) (R : C → Type) (α : Type) where
  ok : (c : C) → R c → Prop
  quiet : C → Prop
  mark : C → Prop
  after : C → Prop
  refused : α → Prop
  done : α → Prop

namespace Outline

variable {C : Type} {R : C → Type} {α β : Type} (o : Outline C R α)

/-- The program has not issued its mark yet. -/
def Before : Prog C R α → Prop
  | .ret a => o.refused a
  | .op c k =>
      (o.mark c ∧ ∀ r, (k r).All o.after o.done) ∨ (o.quiet c ∧ ∀ r, o.ok c r → Before (k r))

/-- The program has not issued its mark yet, and is sure to issue it. -/
def Sure : Prog C R α → Prop
  | .ret _ => False
  | .op c k =>
      (o.mark c ∧ ∀ r, (k r).All o.after o.done) ∨ (o.quiet c ∧ ∀ r, o.ok c r → Sure (k r))

/-- The program only issues quiet commands, until one of them is answered by a grant; then it is sure to
issue its mark. -/
def Seeks (grants : (c : C) → R c → Prop) : Prog C R α → Prop
  | .ret a => o.refused a
  | .op c k =>
      o.quiet c ∧ ∀ r, o.ok c r → (grants c r → o.Sure (k r)) ∧ (¬ grants c r → Seeks grants (k r))

/-- The program has issued its mark. -/
def After (p : Prog C R α) : Prop := p.All o.after o.done

/-- A part of the program that only issues quiet commands and ends with values satisfying
`L`. -/
def Calm (L : β → Prop) : Prog C R β → Prop
  | .ret a => L a
  | .op c k => o.quiet c ∧ ∀ r, o.ok c r → Calm L (k r)

variable {o} {L : β → Prop} {p : Prog C R β}

theorem Calm.mono {L' : β → Prop} (h : o.Calm L p) (hL : ∀ a, L a → L' a) : o.Calm L' p := by
  induction p with
  | ret a => exact hL a h
  | op c k ih => exact ⟨h.1, fun r hr => ih r (h.2 r hr)⟩

theorem Calm.bind {γ : Type} {M : γ → Prop} {f : β → Prog C R γ} (h : o.Calm L p)
    (hf : ∀ a, L a → o.Calm M (f a)) : o.Calm M (p >>= f) := by
  induction p with
  | ret a => exact hf a h
  | op c k ih => exact ⟨h.1, fun r hr => ih r (h.2 r hr)⟩

/-- A calm part leaves the program before its mark. -/
theorem Calm.before {f : β → Prog C R α} (h : o.Calm L p) (hf : ∀ a, L a → o.Before (f a)) :
    o.Before (p >>= f) := by
  induction p with
  | ret a => exact hf a h
  | op c k ih => exact Or.inr ⟨h.1, fun r hr => ih r (h.2 r hr)⟩

/-- A calm part leaves the program sure to issue its mark. -/
theorem Calm.sure {f : β → Prog C R α} (h : o.Calm L p) (hf : ∀ a, L a → o.Sure (f a)) :
    o.Sure (p >>= f) := by
  induction p with
  | ret a => exact hf a h
  | op c k ih => exact Or.inr ⟨h.1, fun r hr => ih r (h.2 r hr)⟩

section Seeks

variable {grants : (c : C) → R c → Prop}

/-- A calm part in which nothing is granted. -/
theorem Calm.seeks {f : β → Prog C R α} (h : o.Calm L p)
    (hno : p.All (fun c => ∀ r, ¬ grants c r) fun _ => True) (hf : ∀ a, L a → o.Seeks grants (f a)) :
    o.Seeks grants (p >>= f) := by
  induction p with
  | ret a => exact hf a h
  | op c k ih =>
      refine ⟨h.1, fun r hr => ⟨fun hgrant => absurd hgrant (hno.1 r), fun _ => ?_⟩⟩
      exact ih r (h.2 r hr) (hno.2 r)

/-- A program is not sure of its mark as long as nothing is granted: every quiet command may be answered
by a refusal. -/
theorem Seeks.not_sure {q : Prog C R α} (h : o.Seeks grants q) (hmark : ∀ c, o.mark c → ¬ o.quiet c)
    (hdeny : ∀ c, o.quiet c → ∃ r, o.ok c r ∧ ¬ grants c r) : ¬ o.Sure q := by
  induction q with
  | ret a => exact id
  | op c k ih =>
      rintro (⟨hc, -⟩ | ⟨-, hrest⟩)
      · exact hmark c hc h.1
      · obtain ⟨r, hr, hno⟩ := hdeny c h.1
        exact ih r ((h.2 r hr).2 hno) (hrest r hr)

end Seeks

theorem Calm.ite {b : Prop} [Decidable b] {q : Prog C R β} (hp : b → o.Calm L p)
    (hq : ¬ b → o.Calm L q) : o.Calm L (if b then p else q) := by
  split
  · exact hp ‹_›
  · exact hq ‹_›

theorem before_ite {b : Prop} [Decidable b] {p q : Prog C R α} (hp : b → o.Before p)
    (hq : ¬ b → o.Before q) : o.Before (if b then p else q) := by
  split
  · exact hp ‹_›
  · exact hq ‹_›

end Outline

/-! ## Pools of outlined programs -/

section Outlined

variable {ι C : Type} {R : C → Type} {α S : Type} [DecidableEq ι]

/-- The programs in `D` have passed their marks, the others have not. -/
structure Outlined (o : ι → Outline C R α) (D : Finset ι) (thread : ι → Prog C R α) : Prop where
  before : ∀ i, i ∉ D → (o i).Before (thread i)
  after : ∀ i, i ∈ D → (o i).After (thread i)

variable {o : ι → Outline C R α} {D : Finset ι} {cfg : Pool ι C R α S}
  {exec : (c : C) → S → R c × S} {i : ι}

theorem Outlined.update_before {thread : ι → Prog C R α} {p : Prog C R α}
    (h : Outlined o D thread) (hi : i ∉ D) (hp : (o i).Before p) :
    Outlined o D (Function.update thread i p) := by
  constructor
  · intro j hj
    by_cases hji : j = i
    · subst hji; rw [Function.update_self]; exact hp
    · rw [Function.update_of_ne hji]; exact h.before j hj
  · intro j hj
    have hji : j ≠ i := by rintro rfl; exact hi hj
    rw [Function.update_of_ne hji]
    exact h.after j hj

theorem Outlined.update_after {thread : ι → Prog C R α} {p : Prog C R α}
    (h : Outlined o D thread) (hp : (o i).After p) :
    Outlined o (insert i D) (Function.update thread i p) := by
  constructor
  · intro j hj
    rw [Finset.mem_insert, not_or] at hj
    rw [Function.update_of_ne hj.1]
    exact h.before j hj.2
  · intro j hj
    by_cases hji : j = i
    · subst hji; rw [Function.update_self]; exact hp
    · rw [Function.update_of_ne hji]
      exact h.after j (Finset.mem_of_mem_insert_of_ne hj hji)

/-- **What a step of outlined programs can do**, given that the answer to the next command is
one the program was checked for: nothing happens; or the chosen program issues a quiet command
and stays before its mark; or it issues its mark; or it is past its mark and stays so. -/
theorem Outlined.step_cases (exec : (c : C) → S → R c × S) (i : ι) (h : Outlined o D cfg.thread)
    (hok : ∀ c k, cfg.thread i = .op c k → (o i).ok c (exec c cfg.store).1) :
    cfg.step exec i = cfg ∨
    ∃ c, (cfg.thread i).pending = some c ∧ (cfg.step exec i).store = (exec c cfg.store).2 ∧
      ((i ∉ D ∧ (o i).quiet c ∧ Outlined o D (cfg.step exec i).thread) ∨
       (i ∉ D ∧ (o i).mark c ∧ Outlined o (insert i D) (cfg.step exec i).thread) ∨
       (i ∈ D ∧ (o i).after c ∧ Outlined o D (cfg.step exec i).thread)) := by
  rcases Pool.step_cases exec cfg i with ⟨a, -, hstep⟩ | ⟨c, k, hi, hthread, hstore⟩
  · exact Or.inl hstep
  · refine Or.inr ⟨c, by rw [hi]; rfl, hstore, ?_⟩
    rw [hthread]
    by_cases hD : i ∈ D
    · have hafter := h.after i hD
      rw [hi] at hafter
      have hmoved := h.update_after (i := i) (hafter.2 (exec c cfg.store).1)
      rw [Finset.insert_eq_of_mem hD] at hmoved
      exact Or.inr (Or.inr ⟨hD, hafter.1, hmoved⟩)
    · have hbefore := h.before i hD
      rw [hi] at hbefore
      rcases hbefore with ⟨hmark, hrest⟩ | ⟨hquiet, hrest⟩
      · exact Or.inr (Or.inl ⟨hD, hmark, h.update_after (hrest _)⟩)
      · exact Or.inl ⟨hD, hquiet, h.update_before hD (hrest _ (hok c k hi))⟩

omit [DecidableEq ι] in
/-- A program that has ended without its mark has one of the results allowed then. -/
theorem Outlined.refused_of_notMem {thread : ι → Prog C R α} {a : α} (h : Outlined o D thread)
    (hi : i ∉ D) (ha : thread i = .ret a) : (o i).refused a := by
  have := h.before i hi
  rwa [ha] at this

end Outlined
