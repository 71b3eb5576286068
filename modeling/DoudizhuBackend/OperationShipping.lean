/-
# Copying a queue while its operations are shipped

A source is a queue whose items lie under numbers.  It changes by entries of a log: an item is pushed at
an end or taken from one, or the item under a number is replaced (`QueueEntry.Leads`).  Entry `n + 1`
leads from version `n` to version `n + 1`.

A replica is a list without numbers.  It takes over the items in the order of their numbers and carries
out the entries at the same time, each at its ends; the value that goes with an entry is the one that the
source has when it is sent, which may be later than the entry.  `Replica.Mirrors` is what the replica
keeps at version `m`: it has the items that are copied, and each value is one that the source has had
since (`Recent`), or that of an item that the source has removed since.  At the last version the values
are those of the source (`Replica.Mirrors.eq_items`).
-/
import Mathlib.Data.List.Forall2
import Mathlib.Order.Nat
import Mathlib.Tactic.Common

/-- The two ends of a list. -/
inductive ListEnd where
  | front | back
  deriving DecidableEq

namespace ListEnd

variable {α β : Type*}

/-- The list with one more item. -/
def push (e : ListEnd) (x : α) (xs : List α) : List α :=
  match e with
  | front => x :: xs
  | back => xs ++ [x]

/-- The list without the item at this end. -/
def rest (e : ListEnd) (xs : List α) : List α :=
  match e with
  | front => xs.tail
  | back => xs.dropLast

@[simp]
theorem rest_nil (e : ListEnd) : e.rest ([] : List α) = [] := by cases e <;> rfl

@[simp]
theorem rest_push (e : ListEnd) (x : α) (xs : List α) : e.rest (e.push x xs) = xs := by
  cases e with
  | front => rfl
  | back => exact List.dropLast_concat

theorem filter_push_pos (e : ListEnd) {p : α → Bool} {x : α} (hx : p x) (xs : List α) :
    (e.push x xs).filter p = e.push x (xs.filter p) := by
  cases e <;> simp [push, hx]

theorem filter_push_neg (e : ListEnd) {p : α → Bool} {x : α} (hx : ¬ p x) (xs : List α) :
    (e.push x xs).filter p = xs.filter p := by
  cases e <;> simp [push, hx]

theorem forall₂_push {R : α → β → Prop} (e : ListEnd) {x : α} {y : β} {xs : List α} {ys : List β}
    (h : List.Forall₂ R xs ys) (hxy : R x y) : List.Forall₂ R (e.push x xs) (e.push y ys) := by
  cases e with
  | front => exact .cons hxy h
  | back => exact List.rel_append h (.cons hxy .nil)

theorem forall₂_rest {R : α → β → Prop} (e : ListEnd) {xs : List α} {ys : List β}
    (h : List.Forall₂ R xs ys) : List.Forall₂ R (e.rest xs) (e.rest ys) := by
  cases e with
  | front =>
      cases h with
      | nil => exact .nil
      | cons _ h => exact h
  | back =>
      show List.Forall₂ R xs.dropLast ys.dropLast
      rw [List.dropLast_eq_take, List.dropLast_eq_take, h.length_eq]
      exact List.forall₂_take _ h

end ListEnd

/-- What a queue holds: the numbers of its items in order, and the item under a number. -/
structure NumberedQueue (K α : Type*) where
  numbers : List K
  item : K → Option α

/-- What an entry of the log says; `other` is one that is not about the queue. -/
inductive QueueEntry (K : Type*) where
  | push (e : ListEnd) (n : K)
  | pop (e : ListEnd)
  | set (n : K)
  | other
  deriving DecidableEq

section Shipping

variable {K α : Type*}

/-- An entry leads from one version to the next. -/
inductive QueueEntry.Leads (q q' : NumberedQueue K α) : QueueEntry K → Prop
  | push {e : ListEnd} {n : K} (numbers : q'.numbers = e.push n q.numbers) (new : n ∉ q.numbers)
      (item : ∀ k, k ≠ n → q'.item k = q.item k) : Leads q q' (.push e n)
  | pop {e : ListEnd} {n : K} (numbers : q.numbers = e.push n q'.numbers)
      (item : ∀ k, k ≠ n → q'.item k = q.item k) (gone : q'.item n = none) : Leads q q' (.pop e)
  | set {n : K} (numbers : q'.numbers = q.numbers) (old : n ∈ q.numbers)
      (item : ∀ k, k ≠ n → q'.item k = q.item k) : Leads q q' (.set n)
  | other (numbers : q'.numbers = q.numbers) (item : q'.item = q.item) : Leads q q' .other

/-- The entry gives an item to the number. -/
def QueueEntry.Gives (k : K) : QueueEntry K → Prop
  | push _ n => k = n
  | set n => k = n
  | _ => False

/-- Where an entry gives no item, the old one stays or is removed. -/
theorem QueueEntry.Leads.item_cases {q q' : NumberedQueue K α} {entry : QueueEntry K}
    (h : entry.Leads q q') {k : K} (hk : ¬ entry.Gives k) : q'.item k = q.item k ∨ q'.item k = none := by
  cases h with
  | push _ _ item => exact Or.inl (item k hk)
  | @pop e n _ item gone =>
      rcases Classical.em (k = n) with rfl | hne
      · exact Or.inr gone
      · exact Or.inl (item k hne)
  | set _ _ item => exact Or.inl (item k hk)
  | other _ item => exact Or.inl (by rw [item])

/-- The versions of the source, up to the last one. -/
structure QueueHistory (K α : Type*) where
  past : ℕ → NumberedQueue K α
  last : ℕ

namespace QueueHistory

variable {h h' : QueueHistory K α} {m : ℕ} {n : K} {v : α}

/-- A value that the source has had under the number since version `m`, or any value if the source has
had none in between. -/
def Recent (h : QueueHistory K α) (m : ℕ) (n : K) (v : α) : Prop :=
  ∃ i, m ≤ i ∧ i ≤ h.last ∧ ((h.past i).item n = some v ∨ (h.past i).item n = none)

/-- The source goes on. -/
structure Grows (h h' : QueueHistory K α) : Prop where
  last_le : h.last ≤ h'.last
  past : ∀ i ≤ h.last, h'.past i = h.past i

theorem Recent.grows (hv : h.Recent m n v) (hgrows : h.Grows h') : h'.Recent m n v := by
  obtain ⟨i, hm, hlast, hi⟩ := hv
  exact ⟨i, hm, hlast.trans hgrows.last_le, by rwa [hgrows.past i hlast]⟩

/-- What the source has now. -/
theorem Recent.now (hm : m ≤ h.last) (hn : (h.past h.last).item n = some v ∨ (h.past h.last).item n = none) :
    h.Recent m n v :=
  ⟨h.last, hm, le_rfl, hn⟩

theorem Recent.succ (hv : h.Recent m n v) (hm : m < h.last)
    (hn : (h.past (m + 1)).item n = (h.past m).item n ∨ (h.past (m + 1)).item n = none) :
    h.Recent (m + 1) n v := by
  obtain ⟨i, hmi, hlast, hi⟩ := hv
  rcases hmi.lt_or_eq with hlt | rfl
  · exact ⟨i, hlt, hlast, hi⟩
  · refine ⟨m + 1, le_rfl, hm, ?_⟩
    rcases hn with hn | hn
    · rwa [hn]
    · exact Or.inr hn

end QueueHistory

/-- **The replica has the copied items of version `m`**, with recent values. -/
def QueueHistory.Mirrors (h : QueueHistory K α) (m : ℕ) (copied : K → Bool) (ys : List α) : Prop :=
  List.Forall₂ (h.Recent m) ((h.past m).numbers.filter copied) ys

namespace QueueHistory.Mirrors

variable {h h' : QueueHistory K α} {m : ℕ} {copied copied' : K → Bool} {ys : List α} {n : K} {v : α}
  {entry : QueueEntry K}

theorem grows (hys : h.Mirrors m copied ys) (hgrows : h.Grows h') (hm : m ≤ h.last) :
    h'.Mirrors m copied ys := by
  rw [Mirrors, hgrows.past m hm]
  exact List.Forall₂.imp (fun _ _ hv => hv.grows hgrows) hys

/-- The version does not matter while nothing is copied. -/
theorem of_nil (hys : h.Mirrors m copied ys) (hcopied : ∀ k, ¬ copied k) (m' : ℕ) : h.Mirrors m' copied ys := by
  have hnil : ∀ xs : List K, xs.filter copied = [] := fun xs => List.filter_eq_nil_iff.mpr fun k _ => hcopied k
  rw [Mirrors, hnil] at hys ⊢
  cases hys
  exact .nil

/-- The values are recent at the next version, if none of the items is given by the entry. -/
theorem succ (hys : h.Mirrors m copied ys) (hm : m < h.last) (hlead : entry.Leads (h.past m) (h.past (m + 1)))
    (hgives : ∀ k ∈ (h.past m).numbers, copied k → entry.Gives k → ∀ v, h.Recent (m + 1) k v) :
    List.Forall₂ (h.Recent (m + 1)) ((h.past m).numbers.filter copied) ys := by
  have hmem : List.Forall₂ (fun k v => k ∈ (h.past m).numbers.filter copied ∧ h.Recent m k v)
      ((h.past m).numbers.filter copied) ys := by
    rw [List.forall₂_and_left]
    exact ⟨fun k hk => hk, hys⟩
  refine List.Forall₂.imp (fun k v hv => ?_) hmem
  obtain ⟨hk, hcopied⟩ := List.mem_filter.mp hv.1
  rcases Classical.em (entry.Gives k) with hgive | hgive
  · exact hgives k hk hcopied hgive v
  · exact hv.2.succ hm (hlead.item_cases hgive)

/-- An entry that gives no copied item and takes none. -/
theorem pass (hys : h.Mirrors m copied ys) (hm : m < h.last) (hlead : entry.Leads (h.past m) (h.past (m + 1)))
    (hgives : ∀ k, copied k → ¬ entry.Gives k)
    (hpop : ∀ e, entry = .pop e →
      (h.past (m + 1)).numbers.filter copied = (h.past m).numbers.filter copied) :
    h.Mirrors (m + 1) copied ys := by
  have hsame : (h.past (m + 1)).numbers.filter copied = (h.past m).numbers.filter copied := by
    cases hlead with
    | @push e n numbers _ _ =>
        rw [numbers, e.filter_push_neg]
        exact fun hn => hgives n hn rfl
    | pop => exact hpop _ rfl
    | set numbers _ _ => rw [numbers]
    | other numbers _ => rw [numbers]
  rw [Mirrors, hsame]
  exact hys.succ hm hlead fun k _ hk hgive => absurd hgive (hgives k hk)

/-- An item is pushed, with the value that it has now. -/
theorem push {e : ListEnd} (hys : h.Mirrors m copied ys) (hm : m < h.last)
    (hlead : (QueueEntry.push e n).Leads (h.past m) (h.past (m + 1))) (hn : copied n)
    (hv : (h.past h.last).item n = some v) : h.Mirrors (m + 1) copied (e.push v ys) := by
  have hold := hys.succ hm hlead
  cases hlead with
  | push numbers new item =>
      rw [Mirrors, numbers, e.filter_push_pos hn]
      refine e.forall₂_push (hold fun k hk _ hgive => ?_) (.now hm (Or.inl hv))
      exact absurd (show k = n from hgive) (ne_of_mem_of_not_mem hk new)

/-- An item is taken, one of the copied ones if there is any. -/
theorem pop {e : ListEnd} (hys : h.Mirrors m copied ys) (hm : m < h.last)
    (hlead : (QueueEntry.pop e).Leads (h.past m) (h.past (m + 1)))
    (htakes : (h.past (m + 1)).numbers.filter copied = e.rest ((h.past m).numbers.filter copied)) :
    h.Mirrors (m + 1) copied (e.rest ys) := by
  rw [Mirrors, htakes]
  exact e.forall₂_rest (hys.succ hm hlead fun k _ _ hgive => hgive.elim)

/-- The item at a place is replaced, by the value that it has now. -/
theorem set {i : ℕ} (hys : h.Mirrors m copied ys) (hm : m < h.last)
    (hlead : (QueueEntry.set n).Leads (h.past m) (h.past (m + 1)))
    (hplace : ∀ j, ((h.past m).numbers.filter copied)[j]? = some n ↔ j = i)
    (hv : (h.past h.last).item n = some v) : h.Mirrors (m + 1) copied (ys.set i v) := by
  have hnumbers : (h.past (m + 1)).numbers = (h.past m).numbers := by
    cases hlead with
    | set numbers _ _ => exact numbers
  have hlength := List.Forall₂.length_eq hys
  rw [Mirrors, hnumbers, List.forall₂_iff_get]
  refine ⟨by rw [hlength, List.length_set], fun j hj hj' => ?_⟩
  have hold := (List.forall₂_iff_get.mp hys).2 j hj (by rwa [List.length_set] at hj')
  simp only [List.get_eq_getElem] at hold ⊢
  have hget : ((h.past m).numbers.filter copied)[j]? = some ((h.past m).numbers.filter copied)[j] :=
    List.getElem?_eq_getElem hj
  rcases Classical.em (((h.past m).numbers.filter copied)[j] = n) with heq | hne
  · obtain rfl : j = i := (hplace j).mp (by rw [hget, heq])
    rw [List.getElem_set_self, heq]
    exact .now hm (Or.inl hv)
  · have hij : i ≠ j := by
      rintro rfl
      rw [(hplace i).mpr rfl] at hget
      exact hne (Option.some.inj hget).symm
    rw [List.getElem_set_ne hij]
    exact hold.succ hm (hlead.item_cases fun hgive => hne hgive)

/-- An item that the source does not have any more need not be replaced. -/
theorem set_gone (hys : h.Mirrors m copied ys) (hm : m < h.last)
    (hlead : (QueueEntry.set n).Leads (h.past m) (h.past (m + 1)))
    (hv : (h.past h.last).item n = none) : h.Mirrors (m + 1) copied ys := by
  have hold := hys.succ hm hlead
  cases hlead with
  | set numbers _ _ =>
      rw [Mirrors, numbers]
      refine hold fun k _ _ hgive w => ?_
      obtain rfl : k = n := hgive
      exact .now hm (Or.inr hv)

/-- The next item is copied, if there is one. -/
theorem copy (hys : h.Mirrors m copied ys) {next : Option K}
    (hnext : (h.past m).numbers.filter copied' = (h.past m).numbers.filter copied ++ next.toList)
    {vs : List α} (hvs : List.Forall₂ (h.Recent m) next.toList vs) : h.Mirrors m copied' (ys ++ vs) := by
  rw [Mirrors, hnext]
  exact List.rel_append hys hvs

/-- **At the last version** the replica has the items of the source. -/
theorem eq_items (hys : h.Mirrors h.last copied ys) (hcopied : ∀ k, copied k)
    (hitems : ∀ k ∈ (h.past h.last).numbers, (h.past h.last).item k ≠ none) :
    ys = (h.past h.last).numbers.filterMap (h.past h.last).item := by
  have hall : (h.past h.last).numbers.filter copied = (h.past h.last).numbers :=
    List.filter_eq_self.mpr fun k _ => hcopied k
  rw [Mirrors, hall] at hys
  revert hitems
  generalize (h.past h.last).numbers = ks at hys ⊢
  intro hitems
  induction hys with
  | nil => rfl
  | @cons k v ks ys hv _ ih =>
      obtain ⟨i, hi, hi', hitem⟩ := hv
      obtain rfl := le_antisymm hi hi'
      have hsome := hitem.resolve_right (hitems k List.mem_cons_self)
      rw [List.filterMap_cons_some hsome, ← ih fun k hk => hitems k (List.mem_cons_of_mem _ hk)]

end QueueHistory.Mirrors

end Shipping
