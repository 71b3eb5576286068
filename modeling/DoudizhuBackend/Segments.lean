/-
# Segments of lists

A segment of a list goes from one place up to another.  What a condition with a first and a last element
takes out of a list in its order is a segment, whose places are the numbers of elements before them
(`filter_eq_segment`); and two segments of a list without repetitions are equal if both are empty or they
have the same bounds (`segment_eq_iff`).
-/
import Mathlib.Data.List.Basic
import Mathlib.Data.List.Nodup
import Mathlib.Tactic.Common

namespace Segments

variable {α : Type}

/-- Two segments of a list without repetitions are equal if both are empty or they have the same
bounds. -/
theorem segment_eq_iff {M : List α} (hM : M.Nodup) (a b c d : ℕ) :
    (M.take b).drop a = (M.take d).drop c ↔
      (min b M.length ≤ a ∧ min d M.length ≤ c) ∨ (a = c ∧ min b M.length = min d M.length) := by
  constructor
  · intro heq
    have hlength := congrArg List.length heq
    simp only [List.length_drop, List.length_take] at hlength
    by_cases hempty : min b M.length ≤ a
    · exact Or.inl ⟨hempty, by omega⟩
    · right
      have hhead := congrArg List.head? heq
      rw [List.head?_drop, List.head?_drop, List.getElem?_take_of_lt (by omega),
        List.getElem?_take_of_lt (by omega), List.getElem?_eq_getElem (by omega),
        List.getElem?_eq_getElem (by omega), Option.some.injEq, hM.getElem_inj_iff] at hhead
      omega
  · rintro (⟨hb, hd⟩ | ⟨rfl, hlength⟩)
    · rw [List.drop_eq_nil_of_le (by rw [List.length_take]; exact hb),
        List.drop_eq_nil_of_le (by rw [List.length_take]; exact hd)]
    · rw [List.take_eq_take_iff.mpr hlength]

/-- The first elements of a segment. -/
theorem take_segment (M : List α) (a b n : ℕ) :
    ((M.take b).drop a).take n = (M.take (min b (a + n))).drop a := by
  rw [List.take_drop, List.take_take, Nat.min_comm]

/-- A segment without its first elements. -/
theorem drop_segment (M : List α) (a b n : ℕ) : ((M.take b).drop a).drop n = (M.take b).drop (a + n) := by
  rw [List.drop_drop]

section Filter

variable {P Q : α → Prop} [DecidablePred P] [DecidablePred Q]

/-- No element has a property that the first one lacks. -/
theorem countP_eq_zero_of_head {x : α} {l : List α} (hl : ∀ y ∈ l, P y → P x) (hx : ¬ P x) :
    l.countP P = 0 := by
  rw [List.countP_eq_zero]
  exact fun y hy hPy => hx (hl y hy (of_decide_eq_true hPy))

/-- **A filter with two bounds is a segment**: `P` holds of the elements before the first bound, `Q` of those
up to the second one. -/
theorem filter_eq_segment : ∀ {l : List α}, l.Pairwise (fun x y => P y → P x) →
    l.Pairwise (fun x y => Q y → Q x) →
      l.filter (fun x => ¬ P x ∧ Q x) = (l.take (l.countP Q)).drop (l.countP P) := by
  intro l
  induction l with
  | nil => exact fun _ _ => rfl
  | cons x l ih =>
      intro hP hQ
      rw [List.pairwise_cons] at hP hQ
      have hrest := ih hP.2 hQ.2
      by_cases hx : Q x
      · have hcount : (x :: l).countP Q = l.countP Q + 1 := List.countP_cons_of_pos (decide_eq_true hx)
        rw [hcount, List.take_succ_cons]
        by_cases hPx : P x
        · have hbefore : (x :: l).countP P = l.countP P + 1 := List.countP_cons_of_pos (decide_eq_true hPx)
          rw [hbefore, List.drop_succ_cons, List.filter_cons_of_neg (by simp [hPx]), hrest]
        · have hnone := countP_eq_zero_of_head hP.1 hPx
          have hbefore : (x :: l).countP P = l.countP P := List.countP_cons_of_neg (by simpa using hPx)
          rw [hbefore, hnone, List.drop_zero, List.filter_cons_of_pos (by simp [hPx, hx]), hrest, hnone,
            List.drop_zero]
      · -- behind the second bound there is nothing
        have hnone := countP_eq_zero_of_head hQ.1 hx
        have hcount : (x :: l).countP Q = l.countP Q := List.countP_cons_of_neg (by simpa using hx)
        have hempty : (x :: l).filter (fun y => ¬ P y ∧ Q y) = [] := by
          rw [List.filter_eq_nil_iff]
          intro y hy
          rcases List.mem_cons.mp hy with rfl | hy
          · simp [hx]
          · have hQy := List.countP_eq_zero.mp hnone y hy
            simp only [decide_eq_true_eq] at hQy
            simp [hQy]
        rw [hempty, hcount, hnone, List.take_zero, List.drop_nil]

end Filter

end Segments
