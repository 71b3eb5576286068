/-
# Pre- and postconditions of whole executions

`Prog.Triple exec P p Q` says that the program `p`, executed from start to end in a state with
`P`, ends with a value and in a state that satisfy `Q`.  There is one rule for each construct
that programs are written with (`Triple.ret`, `Triple.bind`, `Triple.ite`), a rule of
consequence (`Triple.mono`) and a rule for assumptions that do not depend on the state
(`Triple.of_pre`).
-/
import DoudizhuBackend.CommandProgram

namespace Prog

variable {C : Type} {R : C → Type} {S α β : Type}

/-- Executed in a state with `P`, the program ends with a value and a state that satisfy `Q`. -/
def Triple (exec : (c : C) → S → R c × S) (P : S → Prop) (p : Prog C R α) (Q : α → S → Prop) :
    Prop :=
  ∀ s, P s → Q (p.run exec s).1 (p.run exec s).2

namespace Triple

variable {exec : (c : C) → S → R c × S} {P : S → Prop} {p : Prog C R α} {Q : α → S → Prop}

theorem ret {a : α} (h : ∀ s, P s → Q a s) : Triple exec P (Prog.ret a) Q := h

/-- **Sequencing.**  What the first part ends with is what the rest may assume. -/
theorem bind {M : α → S → Prop} {f : α → Prog C R β} {Q : β → S → Prop}
    (hp : Triple exec P p M) (hf : ∀ a, Triple exec (M a) (f a) Q) :
    Triple exec P (p >>= f) Q := by
  intro s hs
  rw [run_bind]
  exact hf _ _ (hp s hs)

theorem ite {b : Prop} [Decidable b] {q : Prog C R α} (hp : b → Triple exec P p Q)
    (hq : ¬ b → Triple exec P q Q) : Triple exec P (if b then p else q) Q := by
  split
  · exact hp ‹_›
  · exact hq ‹_›

/-- The rule of consequence. -/
theorem mono {P' : S → Prop} {Q' : α → S → Prop} (h : Triple exec P p Q)
    (hP : ∀ s, P' s → P s) (hQ : ∀ a s, Q a s → Q' a s) : Triple exec P' p Q' :=
  fun s hs => hQ _ _ (h s (hP s hs))

/-- A fact that holds before the execution may be used as an assumption. -/
theorem of_pre {a : Prop} (ha : ∀ s, P s → a) (h : a → Triple exec P p Q) :
    Triple exec P p Q :=
  fun s hs => h (ha s hs) s hs

end Triple

end Prog
