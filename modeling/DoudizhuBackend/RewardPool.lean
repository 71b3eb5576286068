/-
# The reward pool

`GameData::addRewardPool` asks whether the pool is there, and then creates it with `set` or adds to it
with `incr`.  This file is about any number of such calls, interleaved at the granularity of single
SSDB commands (`CommandPool.lean`).

`pool_holds_sum` says that after all calls the pool holds the sum of the amounts, if no call asks for
a pool that another call is about to create, if the amount that creates the pool is printed as it is, and
if `incr` adds numbers that it can add: integers, with a sum of 64 bits.  Without the first condition a call
is lost (`first_writer_lost`), without the others the fraction of an amount or the whole amount.
-/
import DoudizhuBackend.CommandPool
import DoudizhuBackend.GameData
import Mathlib.Algebra.BigOperators.Fin
import Mathlib.Tactic.Linarith

open Php GameData

/-- What counts as false counts as zero. -/
theorem Php.toNum_of_not_toBool {v : Value} (h : v.toBool = false) : v.toNum = 0 := by
  cases v with
  | null => rfl
  | bool b => cases b with
    | false => rfl
    | true => cases h
  | num q => simpa [Value.toBool] using h
  | str s =>
      simp only [Value.toBool, Bool.and_eq_false_iff, decide_eq_false_iff_not, ne_eq, not_not] at h
      rcases h with rfl | rfl
      · decide +kernel
      · decide +kernel
  | bytes b =>
      simp only [Value.toBool, decide_eq_false_iff_not, ne_eq, not_not] at h
      subst h
      decide +kernel

/-- The text of an integer is an integer as a whole. -/
theorem Store.intText_intCast (n : ℤ) : Store.intText (Value.num (n : ℚ)).text = some n := by
  unfold Store.intText
  rw [text_intCast, splitSign_intChars]
  dsimp only
  rw [if_pos, digitsVal_toDigits, signed_natAbs]
  refine ⟨Or.inl Nat.toDigits_ne_nil, ?_⟩
  rw [List.all_eq_true]
  exact fun c hc => isDigit_of_mem_toDigits hc

namespace RewardPool

/-! ## `incr` -/

/-- The key of the pool. -/
def key : String := "k_rewardPool"

/-- `incr` can add the amount `n` to the pool `m`: both are integers, and the sum has 64 bits.  PHP
prints an integral double of more than 14 digits in exponential form. -/
def Addable (m n : Value) : Prop :=
  ∃ a b : ℤ, m = .num a ∧ n = .num b ∧ |b| < 10 ^ 14 ∧ |a| < 2 ^ 63 ∧ |a + b| < 2 ^ 63

/-- PHP prints the amount as it is: it has at most 14 digits. -/
def Printable (n : Value) : Prop := ∃ (m : ℤ) (j : ℕ), n = .num (m / 10 ^ j) ∧ |m| < 10 ^ 14

theorem clampInt64_of_abs_lt {n : ℤ} (h : |n| < 2 ^ 63) : Store.clampInt64 n = n := by
  have := abs_lt.mp h
  unfold Store.clampInt64
  omega

theorem wrapInt64_of_abs_lt {n : ℤ} (h : |n| < 2 ^ 63) : Store.wrapInt64 n = n := by
  have := abs_lt.mp h
  unfold Store.wrapInt64
  omega

/-- An amount that can be added is added. -/
theorem incr_of_addable {s : Store} {m n : Value} (hpool : s.kv.lookup key = some m)
    (h : Addable m n) : s.incr key n = { s with kv := s.kv.insert key (.num (m.toNum + n.toNum)) } := by
  obtain ⟨a, b, rfl, rfl, hb, ha, hsum⟩ := h
  unfold Store.incr
  have hb' : |b| < 2 ^ 63 := hb.trans (by decide)
  simp only [hpool, Store.intText_intCast, intval_text_intCast, clampInt64_of_abs_lt ha,
    clampInt64_of_abs_lt hb', wrapInt64_of_abs_lt hsum, Value.toNum_num]
  push_cast
  rfl

/-! ## Calls -/

/-- The calls `ι`, each with its amount: what is left of them, and the stores. -/
abbrev Calls (ι : Type) := Pool ι Cmd Cmd.Resp Unit Store

variable {ι : Type} [DecidableEq ι]

/-- All calls before their first command. -/
def start (v : ι → ℚ) (s : Store) : Calls ι where
  thread := fun i => addRewardPool (.num (v i))
  store := s

/-- What the next command of the call `i` must keep to: the call does not ask for a pool that another
call is about to create, it creates the pool with an amount that can be printed, and it adds what `incr`
can add. -/
def Orderly (cfg : Calls ι) (i : ι) : Prop :=
  match (cfg.thread i).pending with
  | some (.existsKey _) =>
      (cfg.store.kv.lookup key).isSome = true ∨
        ∀ j n, (cfg.thread j).pending ≠ some (.set key n)
  | some (.set _ n) => Printable n
  | some (.incr _ n) => ∀ m, cfg.store.kv.lookup key = some m → Addable m n
  | _ => True

/-- The call has asked for the pool and is about to create it. -/
abbrev creating (n : Value) : Handler Unit := issue (.set key n)

/-- The call has asked for the pool and is about to add to it. -/
abbrev adding (n : Value) : Handler Unit := issue (.incr key n)

/-- The amount of a call that has ended. -/
def credited (cfg : Calls ι) (v : ι → ℚ) (i : ι) : ℚ :=
  if (cfg.thread i).pending.isNone then v i else 0

variable [Fintype ι]

/-- The invariant of the calls: as long as there is no pool, at most one call is about to create it and
none has ended; and then the pool holds the amounts of the calls that have ended. -/
structure Inv (v : ι → ℚ) (cfg : Calls ι) : Prop where
  phase : ∀ i, cfg.thread i = addRewardPool (.num (v i)) ∨ cfg.thread i = creating (.num (v i)) ∨
    cfg.thread i = adding (.num (v i)) ∨ cfg.thread i = .ret ()
  absent : cfg.store.kv.lookup key = none →
    (∀ i, cfg.thread i = addRewardPool (.num (v i)) ∨ cfg.thread i = creating (.num (v i))) ∧
      ∀ i j, cfg.thread i = creating (.num (v i)) → cfg.thread j = creating (.num (v j)) → i = j
  present : ∀ m, cfg.store.kv.lookup key = some m →
    (∀ i, cfg.thread i ≠ creating (.num (v i))) ∧ m.toNum = ∑ i, credited cfg v i

variable {v : ι → ℚ} {cfg : Calls ι} {w : World}

/-- A call that has ended adds its amount to the amounts of the ended calls. -/
theorem sum_credited {cfg' : Calls ι} {i : ι} {c : Cmd} (hi : (cfg.thread i).pending = some c)
    (hi' : cfg'.thread i = .ret ()) (hj : ∀ j, j ≠ i → cfg'.thread j = cfg.thread j) :
    ∑ j, credited cfg' v j = ∑ j, credited cfg v j + v i := by
  have hcredited : ∀ j, credited cfg' v j = credited cfg v j + if j = i then v i else 0 := by
    intro j
    unfold credited
    by_cases hji : j = i
    · subst hji
      rw [hi', hi, if_pos (rfl : j = j)]
      show v j = 0 + v j
      rw [zero_add]
    · rw [hj j hji, if_neg hji, add_zero]
  simp only [hcredited, Finset.sum_add_distrib]
  rw [Finset.sum_ite_eq' Finset.univ i fun _ => v i, if_pos (Finset.mem_univ i)]

theorem credited_congr {cfg' : Calls ι} {i : ι} (hi : (cfg.thread i).pending.isNone = false)
    (hi' : (cfg'.thread i).pending.isNone = false) (hj : ∀ j, j ≠ i → cfg'.thread j = cfg.thread j) :
    ∑ j, credited cfg' v j = ∑ j, credited cfg v j := by
  refine Finset.sum_congr rfl fun j _ => ?_
  unfold credited
  by_cases hji : j = i
  · subst hji
    rw [hi, hi']
  · rw [hj j hji]

/-- The call `i` asks for the pool. -/
theorem Inv.step_ask {i : ι} (h : Inv v cfg) (hg : Orderly cfg i)
    (hi : cfg.thread i = addRewardPool (.num (v i))) : Inv v (cfg.step (exec w) i) := by
  have hthread : (cfg.step (exec w) i).thread i =
      if (cfg.store.kv.lookup key).isSome then adding (.num (v i)) else creating (.num (v i)) :=
    Pool.step_thread_self hi
  have hstore : (cfg.step (exec w) i).store = cfg.store := Pool.step_store hi
  have hother : ∀ j, j ≠ i → (cfg.step (exec w) i).thread j = cfg.thread j := fun j hj =>
    Pool.step_thread_of_ne hj
  have hpending : (cfg.thread i).pending.isNone = false := by rw [hi]; rfl
  cases hpool : cfg.store.kv.lookup key with
  | some m =>
      rw [hpool, Option.isSome_some, if_pos rfl] at hthread
      obtain ⟨hcreating, hsum⟩ := h.present m hpool
      refine ⟨fun j => ?_, fun hnone => ?_, fun m' hm' => ?_⟩
      · by_cases hj : j = i
        · subst hj
          exact Or.inr (Or.inr (Or.inl hthread))
        · rw [hother j hj]
          exact h.phase j
      · rw [hstore, hpool] at hnone
        cases hnone
      · rw [hstore, hpool] at hm'
        cases hm'
        refine ⟨fun j hj => ?_, ?_⟩
        · by_cases hji : j = i
          · subst hji
            rw [hthread] at hj
            cases hj
          · rw [hother j hji] at hj
            exact hcreating j hj
        · rw [hsum, credited_congr hpending (by rw [hthread]; rfl) hother]
  | none =>
      rw [hpool] at hthread
      have hthread : (cfg.step (exec w) i).thread i = creating (.num (v i)) := hthread
      obtain ⟨hphase, -⟩ := h.absent hpool
      -- the guard: nobody else is about to create the pool
      have halone : ∀ j, cfg.thread j ≠ creating (.num (v j)) := by
        intro j hj
        unfold Orderly at hg
        rw [hi] at hg
        rcases hg with hsome | hnobody
        · rw [hpool] at hsome
          cases hsome
        · exact hnobody j (.num (v j)) (by rw [hj]; rfl)
      refine ⟨fun j => ?_, fun _ => ⟨fun j => ?_, fun j j' hj hj' => ?_⟩, fun m hm => ?_⟩
      · by_cases hj : j = i
        · subst hj
          exact Or.inr (Or.inl hthread)
        · rw [hother j hj]
          exact h.phase j
      · by_cases hj : j = i
        · subst hj
          exact Or.inr hthread
        · rw [hother j hj]
          exact hphase j
      · have hone : ∀ j, (cfg.step (exec w) i).thread j = creating (.num (v j)) → j = i := by
          intro j hj
          by_contra hji
          rw [hother j hji] at hj
          exact halone j hj
        rw [hone j hj, hone j' hj']
      · rw [hstore, hpool] at hm
        cases hm

/-- The call `i` creates the pool. -/
theorem Inv.step_create {i : ι} (h : Inv v cfg) (hi : cfg.thread i = creating (.num (v i))) :
    Inv v (cfg.step (exec w) i) := by
  have hthread : (cfg.step (exec w) i).thread i = .ret () := Pool.step_thread_self hi
  have hstore : (cfg.step (exec w) i).store =
      { cfg.store with kv := cfg.store.kv.insert key (.num (v i)) } := Pool.step_store hi
  have hother : ∀ j, j ≠ i → (cfg.step (exec w) i).thread j = cfg.thread j := fun j hj =>
    Pool.step_thread_of_ne hj
  have hpool : cfg.store.kv.lookup key = none := by
    cases hlookup : cfg.store.kv.lookup key with
    | none => rfl
    | some m => exact absurd hi ((h.present m hlookup).1 i)
  obtain ⟨hphase, hone⟩ := h.absent hpool
  have hpool' : (cfg.step (exec w) i).store.kv.lookup key = some (.num (v i)) := by
    rw [hstore]
    exact AList.lookup_insert cfg.store.kv
  refine ⟨fun j => ?_, fun hnone => ?_, fun m hm => ?_⟩
  · by_cases hj : j = i
    · subst hj
      exact Or.inr (Or.inr (Or.inr hthread))
    · rw [hother j hj]
      exact h.phase j
  · rw [hpool'] at hnone
    cases hnone
  · rw [hpool'] at hm
    cases hm
    refine ⟨fun j hj => ?_, ?_⟩
    · by_cases hji : j = i
      · subst hji
        rw [hthread] at hj
        cases hj
      · rw [hother j hji] at hj
        exact hji (hone j i hj hi)
    · -- before, no call has ended
      have hzero : ∀ j, credited cfg v j = 0 := by
        intro j
        unfold credited
        rcases hphase j with hj | hj
        · rw [hj]; rfl
        · rw [hj]; rfl
      rw [sum_credited (by rw [hi]; rfl) hthread hother, Finset.sum_eq_zero fun j _ => hzero j, zero_add]
      rfl

/-- The call `i` adds to the pool. -/
theorem Inv.step_add {i : ι} (h : Inv v cfg) (hg : Orderly cfg i)
    (hi : cfg.thread i = adding (.num (v i))) : Inv v (cfg.step (exec w) i) := by
  have hthread : (cfg.step (exec w) i).thread i = .ret () := Pool.step_thread_self hi
  have hstore : (cfg.step (exec w) i).store = cfg.store.incr key (.num (v i)) := Pool.step_store hi
  have hother : ∀ j, j ≠ i → (cfg.step (exec w) i).thread j = cfg.thread j := fun j hj =>
    Pool.step_thread_of_ne hj
  cases hpool : cfg.store.kv.lookup key with
  | none =>
      rcases (h.absent hpool).1 i with hphase | hphase
      · rw [hi] at hphase; cases hphase
      · rw [hi] at hphase; cases hphase
  | some m =>
      obtain ⟨hcreating, hsum⟩ := h.present m hpool
      have haddable : Addable m (.num (v i)) := by
        unfold Orderly at hg
        rw [hi] at hg
        exact hg m hpool
      rw [incr_of_addable hpool haddable] at hstore
      have hpool' : (cfg.step (exec w) i).store.kv.lookup key = some (.num (m.toNum + v i)) := by
        rw [hstore]
        exact AList.lookup_insert cfg.store.kv
      refine ⟨fun j => ?_, fun hnone => ?_, fun m' hm' => ?_⟩
      · by_cases hj : j = i
        · subst hj
          exact Or.inr (Or.inr (Or.inr hthread))
        · rw [hother j hj]
          exact h.phase j
      · rw [hpool'] at hnone
        cases hnone
      · rw [hpool'] at hm'
        cases hm'
        refine ⟨fun j hj => ?_, ?_⟩
        · by_cases hji : j = i
          · subst hji
            rw [hthread] at hj
            cases hj
          · rw [hother j hji] at hj
            exact hcreating j hj
        · rw [sum_credited (by rw [hi]; rfl) hthread hother, ← hsum]
          rfl

/-- Every orderly step keeps the invariant. -/
theorem Inv.step (h : Inv v cfg) (i : ι) (hg : Orderly cfg i) : Inv v (cfg.step (exec w) i) := by
  rcases h.phase i with hi | hi | hi | hi
  · exact h.step_ask hg hi
  · exact h.step_create hi
  · exact h.step_add hg hi
  · rw [Pool.step_of_ret hi]
    exact h

omit [DecidableEq ι] in
theorem inv_start {s : Store} (hs : s.kv.lookup key = none) : Inv v (start v s) := by
  refine ⟨fun i => Or.inl rfl, fun _ => ⟨fun i => Or.inl rfl, fun i j hi => ?_⟩, fun m hm => ?_⟩
  · cases hi
  · rw [start, hs] at hm
    cases hm

/-- **The pool holds the sum.**  After any interleaving of calls that all keep to `Orderly`, once all
of them have ended, the value of the pool is the sum of their amounts. -/
theorem pool_holds_sum (w : World) (v : ι → ℚ) (s : Store) (hs : s.kv.lookup key = none)
    (schedule : List ι) (hg : Guarded (Pool.step (exec w)) Orderly (start v s) schedule)
    (hend : ∀ i, (schedule.foldl (Pool.step (exec w)) (start v s)).thread i = .ret ()) :
    (getRewardPoolVal.run (exec w) (schedule.foldl (Pool.step (exec w)) (start v s)).store).1.toNum =
      ∑ i, v i := by
  have hinv : Inv v (schedule.foldl (Pool.step (exec w)) (start v s)) :=
    hg.invariant (fun cfg i h hi => h.step i hi) (inv_start hs)
  generalize schedule.foldl (Pool.step (exec w)) (start v s) = cfg at *
  show (if ((cfg.store.kv.lookup key).getD .null).toBool then (cfg.store.kv.lookup key).getD .null
    else .num 0).toNum = _
  cases hpool : cfg.store.kv.lookup key with
  | none =>
      -- without a pool no call has ended, so there are none
      have hempty : IsEmpty ι := by
        refine ⟨fun i => ?_⟩
        rcases (hinv.absent hpool).1 i with hi | hi
        · rw [hend i] at hi; cases hi
        · rw [hend i] at hi; cases hi
      rw [Finset.sum_of_isEmpty]
      rfl
  | some m =>
      have hcredited : ∀ i, credited cfg v i = v i := by
        intro i
        rw [credited, hend i]
        rfl
      have hsum := (hinv.present m hpool).2
      simp only [hcredited] at hsum
      rw [← hsum, Option.getD_some]
      split
      · rfl
      · rename_i hfalse
        exact (toNum_of_not_toBool (Bool.not_eq_true _ ▸ hfalse)).symm

/-- An amount of 10 and one of 20, both on an empty store. -/
def sampleAmounts (i : Fin 2) : ℚ := if i = 0 then 10 else 20

theorem pool_holds_sum_sample :
    (getRewardPoolVal.run (exec World.plain) (([0, 0, 1, 1] : List (Fin 2)).foldl
      (Pool.step (exec World.plain)) (start sampleAmounts Store.empty)).store).1.toNum = 30 := by
  rw [pool_holds_sum World.plain sampleAmounts Store.empty rfl [0, 0, 1, 1] ?_ ?_]
  · simp [sampleAmounts, Fin.sum_univ_two]
    norm_num
  · refine ⟨Or.inr ?_, ⟨10, 0, ?_, by decide⟩, Or.inl rfl, ?_, trivial⟩
    · intro j n hj
      cases hj
    · norm_num [sampleAmounts]
    · rintro m hm
      cases hm
      exact ⟨10, 20, rfl, rfl, by decide, by decide, by decide⟩
  · intro i
    match i with
    | 0 => rfl
    | 1 => rfl

/-- **Two first calls lose one amount.**  Both calls ask for the pool before either has created it; the
second `set` takes the place of the first. -/
theorem first_writer_lost :
    let cfg := ([0, 1, 0, 1] : List (Fin 2)).foldl (Pool.step (exec World.plain))
      (start sampleAmounts Store.empty)
    (∀ i, (cfg.thread i).pending.isNone = true) ∧
      (getRewardPoolVal.run (exec World.plain) cfg.store).1 = .num 20 ∧
      sampleAmounts 0 + sampleAmounts 1 = 30 := by
  decide +kernel

end RewardPool
