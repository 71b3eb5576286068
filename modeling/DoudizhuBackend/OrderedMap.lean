/-
# Finite maps with ordered keys

The finite map of an ordered key-value store: the entries in the order of their keys, no key
twice.  A lookup, a write and a removal concern one key; `after`, `lastBefore` and the whole
list of entries give what an iterator sees.

Maps are equal when their lookups are (`OrderedMap.ext`), and every operation is described by
what it does to lookups.
-/
import Mathlib.Data.List.Pairwise
import Mathlib.Data.List.Sort
import Mathlib.Order.Basic
import Mathlib.Tactic.Common

/-- The entries of a map in the order of their keys. -/
structure OrderedMap (α β : Type) [LinearOrder α] where
  entries : List (α × β)
  sorted : entries.Pairwise fun p q => p.1 < q.1

namespace OrderedMap

variable {α β : Type} [LinearOrder α] {m m' : OrderedMap α β} {k l : α} {v : β}

/-! ## Operations -/

/-- The map without entries. -/
def empty : OrderedMap α β := ⟨[], List.Pairwise.nil⟩

/-- The value of a key. -/
def get (m : OrderedMap α β) (k : α) : Option β := (m.entries.find? (·.1 = k)).map (·.2)

/-- Set the value of a key. -/
def put (m : OrderedMap α β) (k : α) (v : β) : OrderedMap α β where
  entries := m.entries.filter (·.1 < k) ++ (k, v) :: m.entries.filter (k < ·.1)
  sorted := by
    rw [List.pairwise_append]
    refine ⟨m.sorted.filter _, ?_, ?_⟩
    · rw [List.pairwise_cons]
      refine ⟨?_, m.sorted.filter _⟩
      intro p hp
      simpa using (List.mem_filter.mp hp).2
    · intro p hp q hq
      have hpk : p.1 < k := by simpa using (List.mem_filter.mp hp).2
      rcases List.mem_cons.mp hq with rfl | hq
      · exact hpk
      · have hkq : k < q.1 := by simpa using (List.mem_filter.mp hq).2
        exact hpk.trans hkq

/-- Remove a key. -/
def delete (m : OrderedMap α β) (k : α) : OrderedMap α β where
  entries := m.entries.filter (·.1 ≠ k)
  sorted := m.sorted.filter _

/-- The entries behind a key, in order. -/
def after (m : OrderedMap α β) (k : α) : List (α × β) := m.entries.filter (k < ·.1)

/-- The first entry at or behind a key. -/
def seek (m : OrderedMap α β) (k : α) : Option (α × β) := m.entries.find? (k ≤ ·.1)

/-- The last entry before a key. -/
def lastBefore (m : OrderedMap α β) (k : α) : Option (α × β) :=
  (m.entries.filter (·.1 < k)).getLast?

/-! ## Lookups -/

theorem get_empty (k : α) : (empty : OrderedMap α β).get k = none := rfl

/-- A key has one value. -/
theorem eq_of_mem_entries {w : β} (hv : (k, v) ∈ m.entries) (hw : (k, w) ∈ m.entries) : v = w := by
  have hsymm : Std.Symm fun p q : α × β => p.1 ≠ q.1 := ⟨fun _ _ h => h.symm⟩
  have hdistinct : m.entries.Pairwise fun p q => p.1 ≠ q.1 := m.sorted.imp fun h => h.ne
  by_contra hne
  exact hdistinct.forall hv hw (fun h => hne (Prod.mk.inj h).2) rfl

/-- The entries are what `get` finds. -/
theorem mem_entries_iff : (k, v) ∈ m.entries ↔ m.get k = some v := by
  constructor
  · intro h
    cases hfind : m.entries.find? (·.1 = k) with
    | none =>
        have := List.find?_eq_none.mp hfind (k, v) h
        simp at this
    | some p =>
        obtain ⟨k', w⟩ := p
        have hmem : (k', w) ∈ m.entries := List.mem_of_find?_eq_some hfind
        have hk : k' = k := by simpa using List.find?_some hfind
        subst hk
        rw [get, hfind, eq_of_mem_entries h hmem]
        rfl
  · intro h
    obtain ⟨p, hfind, rfl⟩ := Option.map_eq_some_iff.mp h
    have hk : p.1 = k := by simpa using List.find?_some hfind
    rw [← hk]
    exact List.mem_of_find?_eq_some hfind

/-- Two maps that have the same entries for a key find the same. -/
theorem get_eq_of_mem_iff (h : ∀ v, (k, v) ∈ m.entries ↔ (l, v) ∈ m'.entries) :
    m.get k = m'.get l := by
  apply Option.ext
  intro v
  rw [← mem_entries_iff, ← mem_entries_iff]
  exact h v

/-- Lists in the order of their keys are equal when they have the same elements. -/
theorem eq_of_mem_iff {es es' : List (α × β)} (hs : es.Pairwise fun p q => p.1 < q.1)
    (hs' : es'.Pairwise fun p q => p.1 < q.1) (h : ∀ p, p ∈ es ↔ p ∈ es') : es = es' := by
  have hanti : Std.Antisymm fun p q : α × β => p.1 < q.1 :=
    ⟨fun _ _ hab hba => absurd hba hab.asymm⟩
  have hirrefl : Std.Irrefl fun p q : α × β => p.1 < q.1 := ⟨fun p => lt_irrefl p.1⟩
  exact hs.eq_of_mem_iff hs' h

/-- Maps that agree on some keys have the same entries there. -/
theorem filter_entries_congr {P : α → Prop} [DecidablePred P] (h : ∀ k, P k → m'.get k = m.get k) :
    m'.entries.filter (fun p => P p.1) = m.entries.filter fun p => P p.1 := by
  apply eq_of_mem_iff (m'.sorted.filter _) (m.sorted.filter _)
  rintro ⟨k, v⟩
  rw [List.mem_filter, List.mem_filter, mem_entries_iff, mem_entries_iff, decide_eq_true_eq]
  constructor
  · rintro ⟨hget, hk⟩
    exact ⟨by rw [← h k hk, hget], hk⟩
  · rintro ⟨hget, hk⟩
    exact ⟨by rw [h k hk, hget], hk⟩

/-- Maps with the same lookups are equal. -/
@[ext]
theorem ext (h : ∀ k, m.get k = m'.get k) : m = m' := by
  have hentries : m.entries = m'.entries := by
    apply eq_of_mem_iff m.sorted m'.sorted
    rintro ⟨k, v⟩
    rw [mem_entries_iff, mem_entries_iff, h k]
  obtain ⟨es, hs⟩ := m
  obtain ⟨es', hs'⟩ := m'
  cases hentries
  rfl

/-- What is put is found. -/
@[simp]
theorem get_put_self (m : OrderedMap α β) (k : α) (v : β) : (m.put k v).get k = some v := by
  rw [← mem_entries_iff]
  simp [put]

/-- And the other keys keep their values. -/
@[simp]
theorem get_put_of_ne (m : OrderedMap α β) (v : β) (h : l ≠ k) : (m.put k v).get l = m.get l := by
  apply get_eq_of_mem_iff
  intro w
  have hlt := lt_or_gt_of_ne h
  simp only [put, List.mem_append, List.mem_cons, List.mem_filter, decide_eq_true_eq, Prod.mk.injEq,
    h, false_and, false_or]
  constructor
  · rintro (hw | hw) <;> exact hw.1
  · intro hw
    rcases hlt with hlt | hlt
    · exact Or.inl ⟨hw, hlt⟩
    · exact Or.inr ⟨hw, hlt⟩

/-- Reading after a put. -/
theorem get_put (m : OrderedMap α β) (k l : α) (v : β) :
    (m.put k v).get l = if l = k then some v else m.get l := by
  split
  · rename_i h
    rw [h, get_put_self]
  · rename_i h
    rw [get_put_of_ne m v h]

/-- What is deleted is gone. -/
@[simp]
theorem get_delete_self (m : OrderedMap α β) (k : α) : (m.delete k).get k = none := by
  rw [Option.eq_none_iff_forall_ne_some]
  intro v h
  rw [← mem_entries_iff] at h
  simpa using (List.mem_filter.mp h).2

/-- And the other keys keep their values. -/
@[simp]
theorem get_delete_of_ne (m : OrderedMap α β) (h : l ≠ k) : (m.delete k).get l = m.get l := by
  apply get_eq_of_mem_iff
  intro w
  simp [delete, h]

/-- Reading after a deletion. -/
theorem get_delete (m : OrderedMap α β) (k l : α) :
    (m.delete k).get l = if l = k then none else m.get l := by
  split
  · rename_i h
    rw [h, get_delete_self]
  · rename_i h
    rw [get_delete_of_ne m h]

/-- A write adds at most one entry. -/
theorem length_put_le (m : OrderedMap α β) (k : α) (v : β) :
    (m.put k v).entries.length ≤ m.entries.length + 1 := by
  have hparts : ∀ es : List (α × β),
      (es.filter (·.1 < k)).length + (es.filter (k < ·.1)).length ≤ es.length := by
    intro es
    induction es with
    | nil => exact le_rfl
    | cons p es ih =>
        rw [List.filter_cons, List.filter_cons, List.length_cons]
        rcases lt_trichotomy p.1 k with hlt | heq | hlt
        · simp only [hlt, hlt.not_gt, decide_true, decide_false, if_true, List.length_cons]
          simp only [Bool.false_eq_true, if_false]
          omega
        · simp only [heq, lt_irrefl, decide_false, Bool.false_eq_true, if_false]
          omega
        · simp only [hlt, hlt.not_gt, decide_true, decide_false, if_true, List.length_cons]
          simp only [Bool.false_eq_true, if_false]
          omega
  have := hparts m.entries
  rw [put, List.length_append, List.length_cons]
  omega

/-- A deletion takes one entry at most. -/
theorem length_delete_le (m : OrderedMap α β) (k : α) : (m.delete k).entries.length ≤ m.entries.length :=
  List.length_filter_le _ _

/-! ## Iteration -/

/-- The entries behind a key. -/
theorem mem_after : (l, v) ∈ m.after k ↔ k < l ∧ m.get l = some v := by
  rw [after, List.mem_filter, mem_entries_iff]
  simp [and_comm]

/-- They are in order. -/
theorem after_sorted (m : OrderedMap α β) (k : α) : (m.after k).Pairwise fun p q => p.1 < q.1 :=
  m.sorted.filter _

/-- The first entry behind a key. -/
theorem head?_after_eq_some (h : (m.after k).head? = some (l, v)) :
    k < l ∧ m.get l = some v ∧ ∀ l' w, k < l' → m.get l' = some w → l ≤ l' := by
  obtain ⟨hlt, hget⟩ := mem_after.mp (List.mem_of_head? h)
  refine ⟨hlt, hget, ?_⟩
  intro l' w hlt' hget'
  have hmem : (l', w) ∈ m.after k := mem_after.mpr ⟨hlt', hget'⟩
  obtain ⟨rest, hafter⟩ : ∃ rest, m.after k = (l, v) :: rest := List.head?_eq_some_iff.mp h
  have hs := m.after_sorted k
  rw [hafter] at hmem hs
  rcases List.mem_cons.mp hmem with heq | hrest
  · rw [(Prod.mk.inj heq).1]
  · exact ((List.pairwise_cons.mp hs).1 _ hrest).le

/-- What is behind the first entry behind a key. -/
theorem after_of_cons {es : List (α × β)} (h : m.after k = (l, v) :: es) : m.after l = es := by
  have hs := m.after_sorted k
  rw [h, List.pairwise_cons] at hs
  apply eq_of_mem_iff (m.after_sorted l) hs.2
  rintro ⟨j, w⟩
  have hmem : (j, w) ∈ m.after k ↔ (j, w) = (l, v) ∨ (j, w) ∈ es := by rw [h, List.mem_cons]
  have hkl : k < l := (mem_after.mp (h ▸ List.mem_cons_self)).1
  rw [mem_after]
  constructor
  · rintro ⟨hlt, hget⟩
    refine (hmem.mp (mem_after.mpr ⟨hkl.trans hlt, hget⟩)).resolve_left ?_
    rintro heq
    rw [(Prod.mk.inj heq).1] at hlt
    exact lt_irrefl _ hlt
  · intro hj
    exact ⟨hs.1 _ hj, (mem_after.mp (hmem.mpr (Or.inr hj))).2⟩

/-- What `seek` finds is the first entry from the key on. -/
theorem seek_eq_some (h : m.seek k = some (l, v)) :
    k ≤ l ∧ m.get l = some v ∧ ∀ l', k ≤ l' → l' < l → m.get l' = none := by
  obtain ⟨hle, as, bs, hentries, hbefore⟩ := List.find?_eq_some_iff_append.mp h
  refine ⟨by simpa using hle, ?_, ?_⟩
  · rw [← mem_entries_iff, hentries]
    simp
  · intro l' hk hlt
    rw [Option.eq_none_iff_forall_ne_some]
    intro w hw
    rw [← mem_entries_iff, hentries] at hw
    have hs := m.sorted
    rw [hentries, List.pairwise_append, List.pairwise_cons] at hs
    rcases List.mem_append.mp hw with hw | hw
    · have := hbefore _ hw
      simp only [Bool.not_eq_true', decide_eq_false_iff_not] at this
      exact this hk
    · rcases List.mem_cons.mp hw with hw | hw
      · rw [(Prod.mk.inj hw).1] at hlt
        exact lt_irrefl _ hlt
      · exact absurd hlt (hs.2.1.1 _ hw).asymm

/-- Where `seek` finds nothing there is nothing. -/
theorem seek_eq_none (h : m.seek k = none) (hk : k ≤ l) : m.get l = none := by
  rw [Option.eq_none_iff_forall_ne_some]
  intro v hv
  have := List.find?_eq_none.mp h _ (mem_entries_iff.mpr hv)
  simp [hk] at this

/-- The last entry before a key: there is none behind it, up to the key. -/
theorem lastBefore_of_get (hget : m.get l = some v) (hlt : l < k)
    (hlast : ∀ l', l < l' → l' < k → m.get l' = none) : m.lastBefore k = some (l, v) := by
  have hmem : (l, v) ∈ m.entries.filter (·.1 < k) := by
    rw [List.mem_filter, mem_entries_iff]
    exact ⟨hget, by simpa using hlt⟩
  obtain ⟨as, bs, happend⟩ := List.append_of_mem hmem
  have hbs : bs = [] := by
    cases bs with
    | nil => rfl
    | cons q bs =>
        have hs := m.sorted.filter (·.1 < k)
        have hq : q ∈ m.entries.filter (·.1 < k) := by simp [happend]
        rw [happend, List.pairwise_append, List.pairwise_cons] at hs
        have hlq : l < q.1 := hs.2.1.1 q List.mem_cons_self
        obtain ⟨hq, hqk⟩ := List.mem_filter.mp hq
        have := hlast q.1 hlq (by simpa using hqk)
        rw [mem_entries_iff.mp (show (q.1, q.2) ∈ m.entries from hq)] at this
        cases this
  rw [lastBefore, happend, hbs, List.getLast?_concat]

/-- What stands last before a key. -/
theorem lastBefore_eq_some (h : m.lastBefore k = some (l, v)) : l < k ∧ m.get l = some v := by
  have hmem := List.mem_of_getLast? h
  rw [List.mem_filter, mem_entries_iff] at hmem
  exact ⟨by simpa using hmem.2, hmem.1⟩

/-- An entry before a key is not behind the last one. -/
theorem exists_lastBefore (hget : m.get l = some v) (hlt : l < k) :
    ∃ p, m.lastBefore k = some p ∧ l ≤ p.1 := by
  have hmem : (l, v) ∈ m.entries.filter (·.1 < k) := by
    rw [List.mem_filter, mem_entries_iff]
    exact ⟨hget, by simpa using hlt⟩
  have hs := m.sorted.filter (·.1 < k)
  cases hlast : m.lastBefore k with
  | none =>
      rw [List.getLast?_eq_none_iff.mp hlast] at hmem
      cases hmem
  | some p =>
      refine ⟨p, rfl, ?_⟩
      obtain ⟨as, happend⟩ := List.getLast?_eq_some_iff.mp hlast
      rw [happend, List.pairwise_append] at hs
      rw [happend] at hmem
      rcases List.mem_append.mp hmem with hmem | hmem
      · exact (hs.2.2 _ hmem p List.mem_cons_self).le
      · rw [← List.mem_singleton.mp hmem]

end OrderedMap
