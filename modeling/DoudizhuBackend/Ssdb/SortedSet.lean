/-
# The sorted set in memory

`ssdb-master/src/util/sorted_set.cpp`: items with a key and a score, ordered by score and then by
key, every key at most once (`existed` finds the item of a key).  A value of `SortedSet` carries the
order and the uniqueness of its keys.
-/
import Mathlib.Data.List.Pairwise
import Mathlib.Order.Basic
import Mathlib.Tactic.Common
import Mathlib.Algebra.Order.Ring.Int

namespace Ssdb

variable {α : Type} [LinearOrder α]

/-- `Item::operator<`; an item is its score and its key. -/
def itemLt (p q : ℤ × α) : Prop := p.1 < q.1 ∨ (p.1 = q.1 ∧ p.2 < q.2)

instance (p q : ℤ × α) : Decidable (itemLt p q) := inferInstanceAs (Decidable (_ ∨ _))

/-- The order of items is transitive. -/
theorem itemLt_trans {p q r : ℤ × α} (h : itemLt p q) (h' : itemLt q r) : itemLt p r := by
  rcases h with h | ⟨h, hk⟩
  · rcases h' with h' | ⟨h', -⟩
    · exact Or.inl (h.trans h')
    · exact Or.inl (h.trans_eq h')
  · rcases h' with h' | ⟨h', hk'⟩
    · exact Or.inl (h.trans_lt h')
    · exact Or.inr ⟨h.trans h', hk.trans hk'⟩

/-- And asymmetric. -/
theorem itemLt_asymm {p q : ℤ × α} (h : itemLt p q) : ¬ itemLt q p := by
  intro h'
  rcases itemLt_trans h h' with hlt | ⟨-, hlt⟩
  · exact lt_irrefl _ hlt
  · exact lt_irrefl _ hlt

/-- It refines the order of the scores. -/
theorem itemLt_le {p q : ℤ × α} (h : itemLt p q) : p.1 ≤ q.1 := by
  rcases h with h | h
  · exact h.le
  · exact h.1.le

/-- Items with different keys are comparable. -/
theorem itemLt_total {p q : ℤ × α} (hne : p.2 ≠ q.2) : itemLt p q ∨ itemLt q p := by
  rcases lt_trichotomy p.1 q.1 with h | h | h
  · exact Or.inl (Or.inl h)
  · rcases lt_or_gt_of_ne hne with hk | hk
    · exact Or.inl (Or.inr ⟨h, hk⟩)
    · exact Or.inr (Or.inr ⟨h.symm, hk⟩)
  · exact Or.inr (Or.inl h)

/-- A sorted set: its members with their scores, in order and each once. -/
structure SortedSet (α : Type) [LinearOrder α] where
  items : List (ℤ × α)
  sorted : items.Pairwise itemLt
  unique : items.Pairwise fun p q => p.2 ≠ q.2

namespace SortedSet

/-- The set without members. -/
def empty : SortedSet α := ⟨[], .nil, .nil⟩

/-- The number of members. -/
def size (m : SortedSet α) : ℕ := m.items.length

/-- The set without a member. -/
def del (m : SortedSet α) (key : α) : SortedSet α :=
  ⟨m.items.filter (·.2 ≠ key), m.sorted.filter _, m.unique.filter _⟩

/-- `add`: an item of the key goes, the new one takes its place in the order. -/
def add (m : SortedSet α) (key : α) (score : ℤ) : SortedSet α where
  items := (m.del key).items.filter (itemLt · (score, key)) ++ (score, key) ::
    (m.del key).items.filter (itemLt (score, key) ·)
  sorted := by
    rw [List.pairwise_append, List.pairwise_cons]
    refine ⟨(m.del key).sorted.filter _, ⟨?_, (m.del key).sorted.filter _⟩, ?_⟩
    · intro p hp
      simpa using (List.mem_filter.mp hp).2
    · intro p hp q hq
      have hlt : itemLt p (score, key) := by simpa using (List.mem_filter.mp hp).2
      rcases List.mem_cons.mp hq with rfl | hq
      · exact hlt
      · exact itemLt_trans hlt (by simpa using (List.mem_filter.mp hq).2)
  unique := by
    have hother : ∀ p ∈ (m.del key).items, p.2 ≠ key := fun p hp => by
      simpa using (List.mem_filter.mp hp).2
    rw [List.pairwise_append, List.pairwise_cons]
    refine ⟨(m.del key).unique.filter _, ⟨?_, (m.del key).unique.filter _⟩, ?_⟩
    · intro p hp
      exact (hother p (List.mem_filter.mp hp).1).symm
    · intro p hp q hq
      obtain ⟨hpm, hlt⟩ := List.mem_filter.mp hp
      rcases List.mem_cons.mp hq with rfl | hq
      · exact hother p hpm
      · obtain ⟨hqm, hgt⟩ := List.mem_filter.mp hq
        have hpq : itemLt p q := itemLt_trans (by simpa using hlt) (by simpa using hgt)
        have hsymm : Std.Symm fun p q : ℤ × α => p.2 ≠ q.2 := ⟨fun _ _ h => h.symm⟩
        apply (m.del key).unique.forall hpm hqm
        rintro rfl
        rcases hpq with h | h
        · exact lt_irrefl _ h
        · exact lt_irrefl _ h.2

/-- The first member. -/
def front (m : SortedSet α) : Option (ℤ × α) := m.items.head?

/-- The last member. -/
def back (m : SortedSet α) : Option (ℤ × α) := m.items.getLast?

/-- `max_score`, `0` for an empty set. -/
def maxScore (m : SortedSet α) : ℤ := m.back.elim 0 (·.1)

/-- The set without its first member. -/
def popFront (m : SortedSet α) : SortedSet α :=
  ⟨m.items.tail, m.sorted.tail, m.unique.tail⟩

/-- The set without its last member. -/
def popBack (m : SortedSet α) : SortedSet α :=
  ⟨m.items.dropLast, m.sorted.sublist (List.dropLast_sublist _),
    m.unique.sublist (List.dropLast_sublist _)⟩

variable {m : SortedSet α} {key : α} {score : ℤ} {p q : ℤ × α}

/-- `del` takes the items of a key. -/
theorem mem_del : p ∈ (m.del key).items ↔ p ∈ m.items ∧ p.2 ≠ key := by
  simp [del]

/-- `add` brings an item in the place of the old one of its key. -/
theorem mem_add : p ∈ (m.add key score).items ↔ p = (score, key) ∨ (p ∈ m.items ∧ p.2 ≠ key) := by
  rw [← mem_del]
  simp only [add, List.mem_append, List.mem_cons, List.mem_filter, decide_eq_true_eq]
  constructor
  · rintro (h | h | h)
    · exact Or.inr h.1
    · exact Or.inl h
    · exact Or.inr h.1
  · rintro (h | h)
    · exact Or.inr (Or.inl h)
    · rcases itemLt_total (q := (score, key)) (mem_del.mp h).2 with hlt | hlt
      · exact Or.inl ⟨h, hlt⟩
      · exact Or.inr (Or.inr ⟨h, hlt⟩)

/-- A key has one item. -/
theorem eq_of_mem (hp : p ∈ m.items) (hq : q ∈ m.items) (hkey : p.2 = q.2) : p = q := by
  have hsymm : Std.Symm fun p q : ℤ × α => p.2 ≠ q.2 := ⟨fun _ _ h => h.symm⟩
  by_contra hne
  exact m.unique.forall hp hq hne hkey

/-- No score is below that of the first item. -/
theorem front_le (hp : m.front = some p) (hq : q ∈ m.items) : p.1 ≤ q.1 := by
  obtain ⟨items, sorted, unique⟩ := m
  cases items with
  | nil => cases hp
  | cons r items =>
      cases hp
      rcases List.mem_cons.mp hq with rfl | hq
      · exact le_refl _
      · exact itemLt_le ((List.pairwise_cons.mp sorted).1 q hq)

theorem front_mem (hp : m.front = some p) : p ∈ m.items := List.mem_of_head? hp

theorem front_eq_none (h : m.front = none) : m.items = [] := List.head?_eq_none_iff.mp h

/-- The first item is the only one of its key. -/
theorem mem_popFront (hp : m.front = some p) : q ∈ m.popFront.items ↔ q ∈ m.items ∧ q.2 ≠ p.2 := by
  obtain ⟨items, sorted, unique⟩ := m
  cases items with
  | nil => cases hp
  | cons r items =>
      cases hp
      have hne := (List.pairwise_cons.mp unique).1
      show q ∈ items ↔ q ∈ p :: items ∧ q.2 ≠ p.2
      rw [List.mem_cons]
      constructor
      · exact fun hq => ⟨Or.inr hq, (hne q hq).symm⟩
      · rintro ⟨rfl | hq, hkey⟩
        · exact absurd rfl hkey
        · exact hq

/-- A set with items has a last one. -/
theorem back_of_ne_nil (h : m.items ≠ []) : ∃ p ∈ m.items, m.back = some p := by
  refine ⟨m.items.getLast h, List.getLast_mem h, ?_⟩
  exact List.getLast?_eq_some_getLast h

/-- No score is above that of the last item. -/
theorem le_back (hp : m.back = some p) (hq : q ∈ m.items) : q.1 ≤ p.1 := by
  obtain ⟨items, sorted, unique⟩ := m
  obtain ⟨init, rfl⟩ := List.getLast?_eq_some_iff.mp hp
  rcases List.mem_append.mp hq with hq | hq
  · exact itemLt_le ((List.pairwise_append.mp sorted).2.2 q hq p (by simp))
  · rw [List.mem_singleton.mp hq]

/-- So `max_score` bounds all scores. -/
theorem le_maxScore (hq : q ∈ m.items) : q.1 ≤ m.maxScore := by
  obtain ⟨p, -, hp⟩ := back_of_ne_nil (List.ne_nil_of_mem hq)
  rw [maxScore, hp]
  exact le_back hp hq

/-- And it is one of them. -/
theorem maxScore_mem (h : m.items ≠ []) : ∃ p ∈ m.items, p.1 = m.maxScore := by
  obtain ⟨p, hmem, hp⟩ := back_of_ne_nil h
  exact ⟨p, hmem, by rw [maxScore, hp]; rfl⟩

/-- The last item is the only one of its key. -/
theorem mem_popBack (hp : m.back = some p) : q ∈ m.popBack.items ↔ q ∈ m.items ∧ q.2 ≠ p.2 := by
  obtain ⟨items, sorted, unique⟩ := m
  obtain ⟨init, rfl⟩ := List.getLast?_eq_some_iff.mp hp
  have hne := (List.pairwise_append.mp unique).2.2
  show q ∈ (init ++ [p]).dropLast ↔ q ∈ init ++ [p] ∧ q.2 ≠ p.2
  rw [List.dropLast_concat, List.mem_append, List.mem_singleton]
  constructor
  · exact fun hq => ⟨Or.inl hq, hne q hq p (by simp)⟩
  · rintro ⟨hq | rfl, hkey⟩
    · exact hq
    · exact absurd rfl hkey

end SortedSet

end Ssdb
