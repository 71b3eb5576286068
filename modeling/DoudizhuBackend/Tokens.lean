/-
# The leftmost matches of an alternation

A pattern of fixed length is a list of classes, one for each place.  `matchAll` finds the matches of
several such patterns from left to right: at every place the first pattern that matches there is
taken, a place where none matches is skipped, and the search goes on behind a match.

If no two of the patterns can begin with the same element, what is put together from elements of the
patterns is taken apart at the same places (`matchAll_flatten`).
-/
import Mathlib.Data.List.Forall2
import Mathlib.Tactic.Common

namespace Tokens

variable {α : Type*}

/-- A class of elements for each place. -/
abbrev Pattern (α : Type*) := List (α → Bool)

/-- The pattern matches at the front. -/
def startsWith : Pattern α → List α → Bool
  | [], _ => true
  | _ :: _, [] => false
  | c :: cs, a :: as => c a && startsWith cs as

/-- The matches in a list whose first `skip` elements belong to the match before. -/
def matchesFrom (alts : List (Pattern α)) : ℕ → List α → List (List α)
  | _, [] => []
  | skip + 1, _ :: as => matchesFrom alts skip as
  | 0, a :: as =>
      match alts.find? (startsWith · (a :: as)) with
      | none => matchesFrom alts 0 as
      | some alt => (a :: as).take alt.length :: matchesFrom alts (alt.length - 1) as

/-- All matches, from left to right. -/
def matchAll (alts : List (Pattern α)) (as : List α) : List (List α) := matchesFrom alts 0 as

/-- The list is one match of the pattern. -/
def Fits (alt : Pattern α) (t : List α) : Prop := List.Forall₂ (fun c a => c a = true) alt t

/-- No pattern is empty, and no two of them begin with a common element. -/
structure Exclusive (alts : List (Pattern α)) : Prop where
  ne_nil : ∀ alt ∈ alts, alt ≠ []
  heads : alts.Pairwise fun x y => ∀ c ∈ x.head?, ∀ d ∈ y.head?, ∀ a, c a = true → d a = false

theorem startsWith_append {alt : Pattern α} {t : List α} (h : Fits alt t) (as : List α) :
    startsWith alt (t ++ as) = true := by
  induction h with
  | nil => rfl
  | cons hc _ ih => simp [startsWith, hc, ih]

/-- What matches begins with an element of the first class. -/
theorem head_of_startsWith {alt : Pattern α} (hne : alt ≠ []) {a : α} {as : List α}
    (h : startsWith alt (a :: as) = true) : ∃ c ∈ alt.head?, c a = true := by
  cases alt with
  | nil => exact absurd rfl hne
  | cons c cs =>
      refine ⟨c, rfl, ?_⟩
      rw [startsWith, Bool.and_eq_true] at h
      exact h.1

/-- The pattern of a match is the first one that matches, whatever follows. -/
theorem find?_append {alts : List (Pattern α)} (hex : Exclusive alts) {alt : Pattern α}
    (halt : alt ∈ alts) {a : α} {t : List α} (hfits : Fits alt (a :: t)) (as : List α) :
    alts.find? (startsWith · (a :: t ++ as)) = some alt := by
  obtain ⟨pre, post, rfl⟩ := List.append_of_mem halt
  have hmatch := startsWith_append hfits as
  have htail : (alt :: post).find? (startsWith · (a :: t ++ as)) = some alt :=
    List.find?_cons_of_pos hmatch
  rw [List.find?_append, htail, List.find?_eq_none.mpr, Option.none_or]
  intro x hx hstart
  -- an earlier pattern would begin with the same element
  obtain ⟨c, hc, hca⟩ := head_of_startsWith (hex.ne_nil x (List.mem_append_left _ hx)) hstart
  obtain ⟨d, hd, hda⟩ := head_of_startsWith (hex.ne_nil alt halt) hmatch
  have hdisjoint := (List.pairwise_append.mp hex.heads).2.2 x hx alt List.mem_cons_self c hc d hd a hca
  rw [hda] at hdisjoint
  cases hdisjoint

theorem matchesFrom_skip (alts : List (Pattern α)) (t as : List α) :
    matchesFrom alts t.length (t ++ as) = matchAll alts as := by
  induction t with
  | nil => rfl
  | cons a t ih => exact ih

/-- A match at the front is taken, and the search goes on behind it. -/
theorem matchAll_append {alts : List (Pattern α)} (hex : Exclusive alts) {alt : Pattern α}
    (halt : alt ∈ alts) {t : List α} (hfits : Fits alt t) (as : List α) :
    matchAll alts (t ++ as) = t :: matchAll alts as := by
  have hlength : alt.length = t.length := hfits.length_eq
  cases t with
  | nil => exact absurd (List.length_eq_zero_iff.mp hlength) (hex.ne_nil alt halt)
  | cons a t =>
      have hfind := find?_append hex halt hfits as
      rw [List.cons_append] at hfind
      rw [List.cons_append, matchAll, matchesFrom, hfind]
      dsimp only
      rw [hlength, ← List.cons_append, List.take_left, List.length_cons, Nat.add_sub_cancel,
        matchesFrom_skip]

/-- An element with which no pattern begins is skipped. -/
theorem matchAll_cons_of_none {alts : List (Pattern α)} (hne : ∀ alt ∈ alts, alt ≠ []) {a : α}
    (ha : ∀ alt ∈ alts, ∀ c ∈ alt.head?, c a = false) (as : List α) :
    matchAll alts (a :: as) = matchAll alts as := by
  have hfind : alts.find? (startsWith · (a :: as)) = none := by
    apply List.find?_eq_none.mpr
    intro alt halt hstart
    obtain ⟨c, hc, hca⟩ := head_of_startsWith (hne alt halt) hstart
    rw [ha alt halt c hc] at hca
    cases hca
  rw [matchAll, matchesFrom, hfind]
  rfl

/-- **What is put together from matches is taken apart into them.** -/
theorem matchAll_flatten {alts : List (Pattern α)} (hex : Exclusive alts) {ts : List (List α)}
    (hts : ∀ t ∈ ts, ∃ alt ∈ alts, Fits alt t) : matchAll alts ts.flatten = ts := by
  induction ts with
  | nil => rfl
  | cons t ts ih =>
      obtain ⟨alt, halt, hfits⟩ := hts t List.mem_cons_self
      rw [List.flatten_cons, matchAll_append hex halt hfits,
        ih fun t ht => hts t (List.mem_cons_of_mem _ ht)]

end Tokens
