/-
# Programs over a command signature

A request handler is a sequential program that talks to its environment one
command at a time: it issues a command, waits for the answer, and goes on.
`Prog C R α` is the type of such programs, for an arbitrary type `C` of
commands where the command `c` is answered by a value of type `R c`.

The same program is used at two granularities:

* `Prog.run` executes it from start to end against a state, with
  `exec : (c : C) → S → R c × S` giving the meaning of a single command;
* `CommandPool.lean` executes many programs against one shared state, in any
  interleaving of their single commands.

`Prog.All P L` says that, whatever the answers are, the program only issues
commands satisfying `P` and only ends with values satisfying `L`.  It is closed
under sequencing (`Prog.All.bind`), and it carries every frame property of a run
(`Prog.All.run_view`, `Prog.All.run_inv`).
-/
import Mathlib.Logic.Function.Basic
import Mathlib.Tactic.Common

/-- A sequential program over the commands `C`, where the command `c` is answered
by a value of type `R c`, ending with a value of type `α`. -/
inductive Prog (C : Type) (R : C → Type) (α : Type) : Type where
  | ret (a : α) : Prog C R α
  | op (c : C) (k : R c → Prog C R α) : Prog C R α

namespace Prog

variable {C : Type} {R : C → Type} {S V α β : Type}

/-! ## Sequencing -/

/-- Run `p`, then continue with its result. -/
def bind : Prog C R α → (α → Prog C R β) → Prog C R β
  | ret a, f => f a
  | op c k, f => op c fun r => (k r).bind f

instance : Monad (Prog C R) where
  pure := ret
  bind := bind

/-- The program that issues the single command `c` and returns its answer. -/
def call (c : C) : Prog C R (R c) := op c ret

@[simp] theorem pure_eq_ret (a : α) : (pure a : Prog C R α) = ret a := rfl

@[simp] theorem ret_bind (a : α) (f : α → Prog C R β) : (ret a >>= f) = f a := rfl

@[simp] theorem op_bind (c : C) (k : R c → Prog C R α) (f : α → Prog C R β) :
    (op c k >>= f) = op c fun r => k r >>= f := rfl

@[simp] theorem call_bind (c : C) (f : R c → Prog C R β) :
    (call c >>= f) = op c f := rfl

/-- A continuation goes into both branches. -/
theorem ite_bind (b : Prop) [Decidable b] (p q : Prog C R α) (f : α → Prog C R β) :
    ((if b then p else q) >>= f) = if b then p >>= f else q >>= f := by
  split <;> rfl

/-- Programs are a lawful monad in this respect. -/
theorem bind_assoc {γ : Type} (p : Prog C R α) (f : α → Prog C R β) (g : β → Prog C R γ) :
    ((p >>= f) >>= g) = (p >>= fun a => f a >>= g) := by
  induction p with
  | ret a => rfl
  | op c k ih => exact congrArg (op c) (funext fun r => ih r)

/-! ## Whole executions -/

/-- Execute a program from start to end: `exec c s` answers the command `c` in
state `s` and gives the next state. -/
def run (exec : (c : C) → S → R c × S) : Prog C R α → S → α × S
  | ret a, s => (a, s)
  | op c k, s => (k (exec c s).1).run exec (exec c s).2

variable {exec : (c : C) → S → R c × S}

@[simp] theorem run_ret (a : α) (s : S) : (ret a : Prog C R α).run exec s = (a, s) := rfl

@[simp] theorem run_op (c : C) (k : R c → Prog C R α) (s : S) :
    (op c k).run exec s = (k (exec c s).1).run exec (exec c s).2 := rfl

@[simp] theorem run_call (c : C) (s : S) :
    (call c : Prog C R (R c)).run exec s = exec c s := rfl

/-- A sequence runs its first part and then, in the state reached, the rest. -/
@[simp] theorem run_bind (p : Prog C R α) (f : α → Prog C R β) (s : S) :
    (p >>= f).run exec s = (f (p.run exec s).1).run exec (p.run exec s).2 := by
  induction p generalizing s with
  | ret a => rfl
  | op c k ih => exact ih _ _

@[simp] theorem run_ite (b : Prop) [Decidable b] (p q : Prog C R α) (s : S) :
    (if b then p else q).run exec s = if b then p.run exec s else q.run exec s := by
  split <;> rfl

/-! ## What a program can issue and return -/

/-- Whatever the answers are, every command the program issues satisfies `P` and
every value it ends with satisfies `L`. -/
def All (P : C → Prop) (L : α → Prop) : Prog C R α → Prop
  | ret a => L a
  | op c k => P c ∧ ∀ r, (k r).All P L

section All

variable {P : C → Prop} {L : α → Prop} {p : Prog C R α}

@[simp] theorem all_ret (a : α) : (ret a : Prog C R α).All P L ↔ L a := Iff.rfl

@[simp] theorem all_op (c : C) (k : R c → Prog C R α) :
    (op c k).All P L ↔ P c ∧ ∀ r, (k r).All P L := Iff.rfl

/-- What holds of all commands and results may be weakened. -/
theorem All.mono {P' : C → Prop} {L' : α → Prop} (h : p.All P L)
    (hP : ∀ c, P c → P' c) (hL : ∀ a, L a → L' a) : p.All P' L' := by
  induction p with
  | ret a => exact hL a h
  | op c k ih => exact ⟨hP c h.1, fun r => ih r (h.2 r)⟩

/-- Sequencing: the rest of the program only has to be checked on the values the
first part can end with. -/
theorem All.bind {M : β → Prop} {f : α → Prog C R β} (h : p.All P L)
    (hf : ∀ a, L a → (f a).All P M) : (p >>= f).All P M := by
  induction p with
  | ret a => exact hf a h
  | op c k ih => exact ⟨h.1, fun r => ih r (h.2 r)⟩

/-- It holds of a test if it holds of both branches. -/
theorem All.ite {b : Prop} [Decidable b] {q : Prog C R α} (hp : b → p.All P L)
    (hq : ¬ b → q.All P L) : (if b then p else q).All P L := by
  split
  · exact hp ‹_›
  · exact hq ‹_›

/-! ## Frame rules for whole executions -/

/-- A property of the state that every command satisfying `P` keeps is kept by the
whole execution. -/
theorem All.run_inv {I : S → Prop} (h : p.All P L)
    (hI : ∀ c s, P c → I s → I (exec c s).2) {s : S} (hs : I s) :
    I (p.run exec s).2 := by
  induction p generalizing s with
  | ret a => exact hs
  | op c k ih => exact ih _ (h.2 _) (hI c s h.1 hs)

/-- A part of the state that no command satisfying `P` changes is the same after
the whole execution. -/
theorem All.run_view (view : S → V) (h : p.All P L)
    (hview : ∀ c s, P c → view (exec c s).2 = view s) (s : S) :
    view (p.run exec s).2 = view s :=
  h.run_inv (I := fun s' => view s' = view s) (fun c s' hc hs' => (hview c s' hc).trans hs') rfl

end All

/-- The command a program is about to issue, if it has not ended. -/
def pending : Prog C R α → Option C
  | ret _ => none
  | op c _ => some c

/-- The value a program has ended with, if it has ended. -/
def result : Prog C R α → Option α
  | ret a => some a
  | op _ _ => none

@[simp] theorem pending_op (c : C) (k : R c → Prog C R α) : (op c k).pending = some c := rfl

@[simp] theorem result_ret (a : α) : (ret a : Prog C R α).result = some a := rfl

end Prog
