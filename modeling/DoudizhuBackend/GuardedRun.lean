/-
# Runs of a step function under a guard

For a step function `step : S → L → S` a run from `s` is a list of labels, and the
state it reaches is `ls.foldl step s`.  This file is about runs all of whose steps
satisfy a guard `G : S → L → Prop`, evaluated in the state before the step
(`Guarded step G s ls`).  It gives the rules by which properties of whole runs are
derived from properties of single steps:

* `Guarded.invariant`: what every guarded step keeps, every guarded run keeps;
* `forall_isPrefix_iff_guarded`: if the guard is exact, only the guarded runs keep it;
* `Guarded.history`: the same for a relation between the state and the values of the events so far;
* `exists_of_mem_eventValues`: the values of the events of a run come from its steps;
* `countSteps_le_one`: an event that puts the system for good into a region where
  the event cannot happen, happens at most once;
* `eventValues_pairwise`: if each event leaves a bound on the value of every later
  event, the values of the events of a run are pairwise related.
-/
import Mathlib.Data.List.Basic
import Mathlib.Tactic.Common

section GuardedRun

variable {S L V : Type*} (step : S → L → S)

/-- Every step of the run `ls` from `s` satisfies the guard `G` in the state it
starts from. -/
def Guarded (G : S → L → Prop) : S → List L → Prop
  | _, [] => True
  | s, l :: ls => G s l ∧ Guarded G (step s l) ls

instance Guarded.decidable (G : S → L → Prop) [∀ s l, Decidable (G s l)] :
    ∀ s ls, Decidable (Guarded step G s ls)
  | _, [] => isTrue trivial
  | s, l :: ls => @instDecidableAnd _ _ _ (Guarded.decidable G (step s l) ls)

/-- The number of steps of a run at which the event `E` happens. -/
def countSteps (E : S → L → Bool) : S → List L → ℕ
  | _, [] => 0
  | s, l :: ls => (if E s l then 1 else 0) + countSteps E (step s l) ls

/-- The values of the steps of a run at which `E` yields one, in order. -/
def eventValues (E : S → L → Option V) : S → List L → List V
  | _, [] => []
  | s, l :: ls => (E s l).toList ++ eventValues E (step s l) ls

variable {step} {G : S → L → Prop} {I : S → Prop} {s : S} {ls : List L}

theorem Guarded.mono {G' : S → L → Prop} (h : Guarded step G s ls)
    (hG : ∀ s l, G s l → G' s l) : Guarded step G' s ls := by
  induction ls generalizing s with
  | nil => trivial
  | cons l ls ih => exact ⟨hG s l h.1, ih h.2⟩

/-- **The invariant rule.**  A property kept by every guarded step holds after
every guarded run that starts in it. -/
theorem Guarded.invariant (h : Guarded step G s ls)
    (hstep : ∀ s l, I s → G s l → I (step s l)) (hs : I s) : I (ls.foldl step s) := by
  induction ls generalizing s with
  | nil => exact hs
  | cons l ls ih => exact ih h.2 (hstep s l hs h.1)

/-- **The exact guard.**  If, in states with the invariant, the guard says exactly that the step keeps
it, then the runs all of whose states have the invariant are the guarded ones. -/
theorem forall_isPrefix_iff_guarded (hstep : ∀ s l, I s → (I (step s l) ↔ G s l)) (hs : I s) :
    (∀ pre, pre <+: ls → I (pre.foldl step s)) ↔ Guarded step G s ls := by
  induction ls generalizing s with
  | nil =>
      constructor
      · exact fun _ => trivial
      · rintro - pre hpre
        rw [List.prefix_nil.mp hpre]
        exact hs
  | cons l ls ih =>
      constructor
      · intro h
        have hl : I (step s l) := h [l] ⟨ls, rfl⟩
        refine ⟨(hstep s l hs).mp hl, (ih hl).mp fun pre hpre => ?_⟩
        exact h (l :: pre) (List.cons_prefix_cons.mpr ⟨rfl, hpre⟩)
      · rintro ⟨hl, hrest⟩ pre hpre
        cases pre with
        | nil => exact hs
        | cons a pre =>
            obtain ⟨rfl, htail⟩ := List.cons_prefix_cons.mp hpre
            exact (ih ((hstep s a hs).mpr hl)).mpr hrest pre htail

/-- **The history rule.**  A relation `H` between the values of the past events and the state that
every guarded step keeps, holds after every guarded run. -/
theorem Guarded.history {E : S → L → Option V} {H : List V → S → Prop} {vs : List V}
    (h : Guarded step G s ls)
    (hstep : ∀ vs s l, H vs s → G s l → H (vs ++ (E s l).toList) (step s l)) (hs : H vs s) :
    H (vs ++ eventValues step E s ls) (ls.foldl step s) := by
  induction ls generalizing s vs with
  | nil => simpa [eventValues] using hs
  | cons l ls ih =>
      rw [eventValues, ← List.append_assoc]
      exact ih h.2 (hstep vs s l hs h.1)

/-- A guarded run splits into guarded runs. -/
theorem Guarded.append {ls' : List L} (h : Guarded step G s (ls ++ ls')) :
    Guarded step G s ls ∧ Guarded step G (ls.foldl step s) ls' := by
  induction ls generalizing s with
  | nil => exact ⟨trivial, h⟩
  | cons l ls ih => exact ⟨⟨h.1, (ih h.2).1⟩, (ih h.2).2⟩

/-- Every value of a run comes from one of its steps. -/
theorem exists_of_mem_eventValues {E : S → L → Option V} {v : V} (hv : v ∈ eventValues step E s ls) :
    ∃ pre l post, ls = pre ++ l :: post ∧ E (pre.foldl step s) l = some v := by
  induction ls generalizing s with
  | nil => cases hv
  | cons l ls ih =>
      rw [eventValues, List.mem_append, Option.mem_toList] at hv
      rcases hv with hv | hv
      · exact ⟨[], l, ls, rfl, hv⟩
      · obtain ⟨pre, l', post, hls, hE⟩ := ih hv
        exact ⟨l :: pre, l', post, congrArg (List.cons l) hls, hE⟩

/-- **Never again.**  In a region `Q` that guarded steps do not leave and in which
the event `E` does not happen, a run has no event. -/
theorem countSteps_eq_zero {E : S → L → Bool} {Q : S → Prop} (h : Guarded step G s ls)
    (hI : ∀ s l, I s → G s l → I (step s l))
    (hkeep : ∀ s l, I s → Q s → G s l → Q (step s l))
    (hno : ∀ s l, I s → Q s → G s l → E s l = false) (hs : I s) (hQ : Q s) :
    countSteps step E s ls = 0 := by
  induction ls generalizing s with
  | nil => rfl
  | cons l ls ih =>
      have hE : E s l = false := hno s l hs hQ h.1
      have hrest := ih h.2 (hI s l hs h.1) (hkeep s l hs hQ h.1)
      rw [countSteps, hE, hrest]
      rfl

/-- **At most once.**  If the event `E` leads into a region `Q` that guarded steps
do not leave and in which `E` does not happen, a run has at most one event. -/
theorem countSteps_le_one {E : S → L → Bool} {Q : S → Prop} (h : Guarded step G s ls)
    (hI : ∀ s l, I s → G s l → I (step s l))
    (hevent : ∀ s l, I s → G s l → E s l = true → Q (step s l))
    (hkeep : ∀ s l, I s → Q s → G s l → Q (step s l))
    (hno : ∀ s l, I s → Q s → G s l → E s l = false) (hs : I s) :
    countSteps step E s ls ≤ 1 := by
  induction ls generalizing s with
  | nil => exact Nat.zero_le 1
  | cons l ls ih =>
      rw [countSteps]
      cases hE : E s l with
      | false => simpa using ih h.2 (hI s l hs h.1)
      | true =>
          have hrest : countSteps step E (step s l) ls = 0 :=
            countSteps_eq_zero h.2 hI hkeep hno (hI s l hs h.1) (hevent s l hs h.1 hE)
          simp [hrest]

/-- **Pairwise related events.**  `B v s` is what a past event of value `v` leaves
behind in the state `s`.  If an event leaves its own value behind, guarded steps
keep what is left behind, and a later event is related to it, then the values of
the events of a run are pairwise related. -/
theorem eventValues_pairwise {E : S → L → Option V} {B : V → S → Prop} {r : V → V → Prop}
    (h : Guarded step G s ls)
    (hevent : ∀ s l v, G s l → E s l = some v → B v (step s l))
    (hkeep : ∀ s l v, B v s → G s l → B v (step s l))
    (hrel : ∀ s l v v', B v s → G s l → E s l = some v' → r v v') :
    (eventValues step E s ls).Pairwise r := by
  -- the values left behind by the past are related to all that is still to come
  have key : ∀ (ls : List L) (s : S) (v : V), Guarded step G s ls → B v s →
      ∀ v' ∈ eventValues step E s ls, r v v' := by
    intro ls
    induction ls with
    | nil => intro s v _ _ v' hv'; simp [eventValues] at hv'
    | cons l ls ih =>
        intro s v hg hB v' hv'
        rw [eventValues, List.mem_append] at hv'
        rcases hv' with hv' | hv'
        · exact hrel s l v v' hB hg.1 (by simpa using hv')
        · exact ih _ v hg.2 (hkeep s l v hB hg.1) v' hv'
  induction ls generalizing s with
  | nil => exact List.Pairwise.nil
  | cons l ls ih =>
      rw [eventValues, List.pairwise_append]
      refine ⟨?_, ih h.2, ?_⟩
      · cases E s l <;> simp
      · intro v hv v' hv'
        have hE : E s l = some v := by simpa using hv
        exact key ls _ v h.2 (hevent s l v h.1 hE) v' hv'

end GuardedRun
