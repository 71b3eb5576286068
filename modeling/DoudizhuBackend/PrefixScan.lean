/-
# Stretches of keys with a common start

In an ordered map whose keys are strings, the keys that start with `pre` stand together.
`OrderedMap.under` is that stretch, each key without the common start.

* A walk that starts inside the stretch and stops at the first key without the common start returns
  what is left of the stretch (`takeWhile_after`), and so does a walk backward (`takeWhile_before`).
* A range whose bounds both have the common start lies in the stretch (`filter_between`).
-/
import DoudizhuBackend.OrderedMap
import Mathlib.Data.List.Lex
import Mathlib.Data.List.TakeWhile

namespace OrderedMap

variable {α β : Type} [LinearOrder α]

/-! ## Strings with a common start -/

theorem append_lt_append_iff (pre a b : List α) : pre ++ a < pre ++ b ↔ a < b := by
  induction pre with
  | nil => rfl
  | cons x pre ih =>
      rw [List.cons_append, List.cons_append, List.cons_lt_cons_iff, ih]
      simp

theorem append_le_append_iff (pre a b : List α) : pre ++ a ≤ pre ++ b ↔ a ≤ b := by
  rw [← not_lt, append_lt_append_iff, not_lt]

/-- A string between two strings with a common start has that start. -/
theorem between_append (pre : List α) : ∀ {a b x : List α}, pre ++ a < x → x ≤ pre ++ b →
    ∃ c, x = pre ++ c ∧ a < c ∧ c ≤ b := by
  induction pre with
  | nil => intro a b x ha hb; exact ⟨x, rfl, ha, hb⟩
  | cons p pre ih =>
      intro a b x ha hb
      cases x with
      | nil => exact absurd ha (List.not_lt_nil _)
      | cons y x =>
          rw [List.cons_append, List.cons_lt_cons_iff] at ha
          have hnot : ¬ p :: (pre ++ b) < y :: x := not_lt.mpr hb
          rw [List.cons_lt_cons_iff, not_or] at hnot
          rcases ha with ha | ⟨rfl, ha⟩
          · exact absurd ha hnot.1
          · obtain ⟨c, rfl, hac, hcb⟩ := ih ha (not_lt.mp fun h => hnot.2 ⟨rfl, h⟩)
            exact ⟨c, rfl, hac, hcb⟩

/-- What satisfies `P` comes first: a walk up to the first element without it finds all of them. -/
theorem takeWhile_eq_filter {γ : Type} {P : γ → Bool} {l : List γ}
    (hl : l.Pairwise fun p q => P q → P p) : l.takeWhile P = l.filter P := by
  induction l with
  | nil => rfl
  | cons p l ih =>
      rw [List.pairwise_cons] at hl
      by_cases hp : P p = true
      · rw [List.takeWhile_cons_of_pos hp, List.filter_cons_of_pos hp, ih hl.2]
      · rw [List.takeWhile_cons_of_neg hp, List.filter_cons_of_neg hp]
        symm
        apply List.filter_eq_nil_iff.mpr
        intro q hq hPq
        exact hp (hl.1 q hq hPq)

/-! ## The stretch of a common start -/

variable {m : OrderedMap (List α) β} {pre c : List α} {v : β}

/-- The entries whose keys start with `pre`, without that start. -/
def under (m : OrderedMap (List α) β) (pre : List α) : List (List α × β) :=
  (m.entries.filter fun p => pre <+: p.1).map fun p => (p.1.drop pre.length, p.2)

/-- The entry with the common start put back. -/
def attach (pre : List α) (p : List α × β) : List α × β := (pre ++ p.1, p.2)

theorem mem_under : (c, v) ∈ m.under pre ↔ m.get (pre ++ c) = some v := by
  rw [under, List.mem_map]
  constructor
  · rintro ⟨⟨k, w⟩, hmem, heq⟩
    obtain ⟨hmem, hpre⟩ := List.mem_filter.mp hmem
    simp only [decide_eq_true_eq] at hpre
    obtain ⟨d, rfl⟩ := hpre
    rw [List.drop_left] at heq
    obtain ⟨rfl, rfl⟩ := Prod.mk.inj heq
    exact mem_entries_iff.mp hmem
  · intro hget
    refine ⟨(pre ++ c, v), ?_, by simp⟩
    rw [List.mem_filter, mem_entries_iff]
    exact ⟨hget, by simp⟩

theorem under_sorted (m : OrderedMap (List α) β) (pre : List α) :
    (m.under pre).Pairwise fun p q => p.1 < q.1 := by
  rw [under, List.pairwise_map]
  refine (m.sorted.filter _).imp_of_mem ?_
  intro p q hp hq hlt
  obtain ⟨c, hc⟩ := of_decide_eq_true (List.mem_filter.mp hp).2
  obtain ⟨d, hd⟩ := of_decide_eq_true (List.mem_filter.mp hq).2
  rw [← hc, ← hd, append_lt_append_iff] at hlt
  simpa [← hc, ← hd] using hlt

/-- A sorted list of entries of the stretch is sorted with the common start put back. -/
theorem pairwise_map_attach {es : List (List α × β)} (hs : es.Pairwise fun p q => p.1 < q.1) :
    (es.map (attach pre)).Pairwise fun p q => p.1 < q.1 := by
  rw [List.pairwise_map]
  exact hs.imp fun hlt => (append_lt_append_iff pre _ _).mpr hlt

theorem mem_map_attach {P : List α → Prop} [DecidablePred P] {k : List α} :
    (k, v) ∈ ((m.under pre).filter fun p => P p.1).map (attach pre) ↔
      ∃ c, k = pre ++ c ∧ P c ∧ m.get k = some v := by
  simp only [List.mem_map, List.mem_filter, decide_eq_true_eq, attach, Prod.mk.injEq]
  constructor
  · rintro ⟨⟨c, w⟩, ⟨hmem, hP⟩, rfl, rfl⟩
    exact ⟨c, rfl, hP, mem_under.mp hmem⟩
  · rintro ⟨c, rfl, hP, hget⟩
    exact ⟨(c, v), ⟨mem_under.mpr hget, hP⟩, rfl, rfl⟩

/-- **A walk forward** from inside the stretch, up to its end. -/
theorem takeWhile_after (m : OrderedMap (List α) β) (pre a : List α) :
    (m.after (pre ++ a)).takeWhile (fun p => pre <+: p.1) =
      ((m.under pre).filter fun p => a < p.1).map (attach pre) := by
  -- behind `pre ++ a`, a key before one of the stretch is in the stretch
  rw [takeWhile_eq_filter]
  · apply eq_of_mem_iff ((m.after_sorted _).filter _)
      (pairwise_map_attach ((m.under_sorted pre).filter _))
    rintro ⟨k, v⟩
    rw [mem_map_attach (P := (a < ·)), List.mem_filter, mem_after, decide_eq_true_eq]
    constructor
    · rintro ⟨⟨hlt, hget⟩, c, rfl⟩
      exact ⟨c, rfl, (append_lt_append_iff pre a c).mp hlt, hget⟩
    · rintro ⟨c, rfl, hlt, hget⟩
      exact ⟨⟨(append_lt_append_iff pre a c).mpr hlt, hget⟩, List.prefix_append pre c⟩
  · refine (m.after_sorted _).imp_of_mem ?_
    intro p q hp hq hlt hpre
    obtain ⟨d, hd⟩ := of_decide_eq_true hpre
    obtain ⟨c, hc, -, -⟩ := between_append pre (mem_after.mp hp).1 (hd ▸ hlt.le)
    exact decide_eq_true ⟨c, hc.symm⟩

/-- **A walk backward** from inside the stretch, up to its start. -/
theorem takeWhile_before (m : OrderedMap (List α) β) (pre a : List α) :
    ((m.entries.filter (·.1 < pre ++ a)).reverse).takeWhile (fun p => pre <+: p.1) =
      (((m.under pre).filter fun p => p.1 < a).map (attach pre)).reverse := by
  have hsorted : (m.entries.filter (·.1 < pre ++ a)).Pairwise fun p q => p.1 < q.1 :=
    m.sorted.filter _
  rw [takeWhile_eq_filter, List.filter_reverse]
  · congr 1
    apply eq_of_mem_iff (hsorted.filter _) (pairwise_map_attach ((m.under_sorted pre).filter _))
    rintro ⟨k, v⟩
    rw [mem_map_attach (P := (· < a)), List.mem_filter, List.mem_filter, mem_entries_iff,
      decide_eq_true_eq, decide_eq_true_eq]
    constructor
    · rintro ⟨⟨hget, hlt⟩, c, rfl⟩
      exact ⟨c, rfl, (append_lt_append_iff pre c a).mp hlt, hget⟩
    · rintro ⟨c, rfl, hlt, hget⟩
      exact ⟨⟨hget, (append_lt_append_iff pre c a).mpr hlt⟩, List.prefix_append pre c⟩
  · -- before `pre ++ a`, a key behind one of the stretch is in the stretch
    rw [List.pairwise_reverse]
    refine hsorted.imp_of_mem ?_
    intro p q hp hq hlt hpre
    obtain ⟨d, hd⟩ := of_decide_eq_true hpre
    have hqa : q.1 < pre ++ a := by simpa using (List.mem_filter.mp hq).2
    obtain ⟨c, hc, -, -⟩ := between_append pre (hd ▸ hlt) hqa.le
    exact decide_eq_true ⟨c, hc.symm⟩

/-- A walk forward up to an end, or the end of the stretch. -/
theorem takeWhile_range (m : OrderedMap (List α) β) (pre a : List α) {P : List α → Prop}
    [DecidablePred P] (hP : ∀ x y, x < y → P y → P x) :
    (((m.after (pre ++ a)).takeWhile fun p => P p.1).takeWhile fun p => pre <+: p.1) =
      m.entries.filter fun p => pre ++ a < p.1 ∧ P p.1 ∧ pre <+: p.1 := by
  rw [List.takeWhile_takeWhile, takeWhile_eq_filter, after, List.filter_filter]
  · apply List.filter_congr
    intro p _
    rw [Bool.eq_iff_iff]
    simp only [Bool.and_eq_true, decide_eq_true_eq]
    tauto
  · refine (m.after_sorted _).imp_of_mem ?_
    intro p q hp hq hlt hboth
    simp only [decide_eq_true_eq] at hboth ⊢
    obtain ⟨⟨d, hd⟩, hPq⟩ := hboth
    obtain ⟨c, hc, -, -⟩ := between_append pre (mem_after.mp hp).1 (hd ▸ hlt.le)
    exact ⟨⟨c, hc.symm⟩, hP p.1 q.1 hlt hPq⟩

/-- Keys that all have the common start. -/
theorem filter_stretch (m : OrderedMap (List α) β) (pre : List α) {P : List α → Prop}
    [DecidablePred P] (hP : ∀ x, P x → pre <+: x) :
    m.entries.filter (fun p => P p.1) =
      ((m.under pre).filter fun p => P (pre ++ p.1)).map (attach pre) := by
  apply eq_of_mem_iff (m.sorted.filter _) (pairwise_map_attach ((m.under_sorted pre).filter _))
  rintro ⟨k, v⟩
  rw [mem_map_attach (P := fun c => P (pre ++ c)), List.mem_filter, mem_entries_iff,
    decide_eq_true_eq]
  constructor
  · rintro ⟨hget, hk⟩
    obtain ⟨c, rfl⟩ := hP k hk
    exact ⟨c, rfl, hk, hget⟩
  · rintro ⟨c, rfl, hk, hget⟩
    exact ⟨hget, hk⟩

/-- A range inside the stretch. -/
theorem filter_between (m : OrderedMap (List α) β) (pre a b : List α) :
    m.entries.filter (fun p => pre ++ a < p.1 ∧ p.1 ≤ pre ++ b) =
      ((m.under pre).filter fun p => a < p.1 ∧ p.1 ≤ b).map (attach pre) := by
  rw [m.filter_stretch pre (P := fun x => pre ++ a < x ∧ x ≤ pre ++ b)]
  · simp only [append_lt_append_iff, append_le_append_iff]
  · rintro x ⟨hlow, hhigh⟩
    obtain ⟨c, rfl, -, -⟩ := between_append pre hlow hhigh
    exact List.prefix_append pre c

/-- A range that is read backward, with its lower bound and without its upper one. -/
theorem filter_between_back (m : OrderedMap (List α) β) (pre a b : List α) :
    m.entries.filter (fun p => p.1 < pre ++ a ∧ pre ++ b ≤ p.1) =
      ((m.under pre).filter fun p => p.1 < a ∧ b ≤ p.1).map (attach pre) := by
  rw [m.filter_stretch pre (P := fun x => x < pre ++ a ∧ pre ++ b ≤ x)]
  · simp only [append_lt_append_iff, append_le_append_iff]
  · rintro x ⟨hhigh, hlow⟩
    rcases hlow.lt_or_eq with hlt | rfl
    · obtain ⟨c, rfl, -, -⟩ := between_append pre hlt hhigh.le
      exact List.prefix_append pre c
    · exact List.prefix_append pre b

end OrderedMap
