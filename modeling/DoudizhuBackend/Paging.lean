/-
# Reading in pages

A client reads a sorted list in pages: it asks for the elements behind the last one that it has, at most so
many at a time, until a page is empty.  `pages` is that loop over any call; if each call returns a beginning of
what is behind its cursor, the pages together are the list (`pages_of_sorted`).
-/
import Mathlib.Data.List.Pairwise
import Mathlib.Data.List.Basic
import Mathlib.Tactic.Common

section Pages

variable {σ α β : Type} {call : σ → List α} {cursor : α → σ}

/-- The calls from a cursor on, until a page is empty; nothing where more than `fuel` calls are needed. -/
def pages (call : σ → List α) (cursor : α → σ) : ℕ → σ → Option (List α)
  | 0, _ => none
  | fuel + 1, start =>
      match (call start).getLast? with
      | none => some []
      | some x => (pages call cursor fuel (cursor x)).map (call start ++ ·)

/-- The loop has one result. -/
theorem pages_unique : ∀ {fuel fuel' : ℕ} {start : σ} {l l' : List α}, pages call cursor fuel start = some l →
    pages call cursor fuel' start = some l' → l = l' := by
  intro fuel
  induction fuel with
  | zero => intro fuel' start l l' h; cases h
  | succ fuel ih =>
      intro fuel' start l l' h h'
      cases fuel' with
      | zero => cases h'
      | succ fuel' =>
          rw [pages] at h h'
          cases hlast : (call start).getLast? with
          | none =>
              rw [hlast] at h h'
              rw [← Option.some.inj h, ← Option.some.inj h']
          | some x =>
              rw [hlast] at h h'
              obtain ⟨m, hm, rfl⟩ := Option.map_eq_some_iff.mp h
              obtain ⟨m', hm', rfl⟩ := Option.map_eq_some_iff.mp h'
              rw [ih hm hm']

/-- Where the calls return beginnings of what is left, the pages together are what is left. -/
theorem pages_of_suffix {f : β → α} {M : List β} {n : ℕ} (hn : 0 < n)
    (hcall : ∀ as x bs, M = as ++ x :: bs → call (cursor (f x)) = (bs.take n).map f) :
    ∀ {fuel : ℕ} {start : σ} {bs : List β}, bs <:+ M → call start = (bs.take n).map f → bs.length < fuel →
      pages call cursor fuel start = some (bs.map f) := by
  intro fuel
  induction fuel with
  | zero => intro start bs _ _ hlt; omega
  | succ fuel ih =>
      intro start bs hsuffix hstart hlt
      rw [pages, hstart, List.getLast?_map]
      cases hlast : (bs.take n).getLast? with
      | none =>
          -- an empty page: nothing is left
          have hnil := (List.take_eq_nil_iff.mp (List.getLast?_eq_none_iff.mp hlast)).resolve_left (by omega)
          rw [hnil]
          rfl
      | some x =>
          obtain ⟨as, htake⟩ := List.getLast?_eq_some_iff.mp hlast
          have hbs : bs = as ++ x :: bs.drop n := by
            have happend := List.take_append_drop n bs
            rw [htake, List.append_assoc] at happend
            exact happend.symm
          have hlength := congrArg List.length hbs
          rw [List.length_append, List.length_cons] at hlength
          obtain ⟨front, hM⟩ := hsuffix
          have hnext := hcall (front ++ as) x (bs.drop n) (by
            rw [← hM, List.append_assoc, ← hbs])
          have hrest : bs.drop n <:+ M := (List.drop_suffix n bs).trans ⟨front, hM⟩
          rw [Option.map_some]
          simp only []
          rw [ih hrest hnext (by omega), Option.map_some, ← List.map_append, List.take_append_drop]

/-- **Pages of a sorted list**: if each call returns a beginning of what is behind its cursor, all elements
are returned, once and in order. -/
theorem pages_of_sorted {R : β → β → Prop} [DecidableRel R] (hasymm : ∀ x y, R x y → ¬ R y x)
    {f : β → α} {M : List β} (hM : M.Pairwise R) {n : ℕ} (hn : 0 < n) {start : σ}
    (hstart : call start = (M.take n).map f)
    (hcall : ∀ x ∈ M, call (cursor (f x)) = ((M.filter fun y => R x y).take n).map f) :
    pages call cursor (M.length + 1) start = some (M.map f) := by
  apply pages_of_suffix hn _ (List.suffix_refl M) hstart (Nat.lt_succ_self _)
  intro as x bs heq
  rw [heq, List.pairwise_append, List.pairwise_cons] at hM
  obtain ⟨-, ⟨hbs, -⟩, has⟩ := hM
  have hfront : as.filter (fun y => R x y) = [] := by
    rw [List.filter_eq_nil_iff]
    intro y hy hxy
    exact hasymm y x (has y hy x List.mem_cons_self) (of_decide_eq_true hxy)
  have hself : ¬ R x x := fun h => hasymm x x h h
  have hback : bs.filter (fun y => R x y) = bs := by
    rw [List.filter_eq_self]
    exact fun y hy => decide_eq_true (hbs y hy)
  rw [hcall x (by rw [heq]; simp), heq, List.filter_append, hfront, List.nil_append,
    List.filter_cons_of_neg (by simpa using hself), hback]

end Pages
