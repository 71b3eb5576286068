/-
# Copying a map while its log is shipped

A source is a map that changes, with a numbered log: every change of a key is followed by an entry
that names the key and tells whether it has a value now.  Old entries may be forgotten; this file
speaks of all that there ever were.

A replica takes over the map in the order of its keys, from snapshots, and reads the log at the same
time.  Its cursor separates the keys that it has taken over from the others (`⊥` before the first key,
`⊤` behind the last).  An entry about a key behind the cursor is carried out with the value that the
source has by then; an entry about a key before the cursor is passed over, and the next key is then
copied from a new snapshot.

`Replica.Follows` is what a replica keeps whatever the source and the replica do in between: a key
behind the cursor whose value differs has an entry that is still to be read, and a key before the
cursor has no value.  At the end of the log the maps are equal (`Replica.Follows.content_eq`).
-/
import Mathlib.Order.WithBot
import Mathlib.Data.List.Basic
import Mathlib.Tactic.Common

/-- A map with a log: all entries that followed number `base`, in order. -/
structure Source (K V : Type*) where
  content : K → Option V
  base : ℕ
  log : List (K × Bool)

/-- What a replica holds, the last number it has read, and its cursor. -/
structure Replica (K V : Type*) where
  content : K → Option V
  seq : ℕ
  cursor : WithBot (WithTop K)

variable {K V : Type*}

namespace Source

/-- The last number given. -/
def last (s : Source K V) : ℕ := s.base + s.log.length

/-- The entry with a number. -/
def entry (s : Source K V) (n : ℕ) : Option (K × Bool) :=
  if s.base < n then s.log[n - s.base - 1]? else none

/-- There is an entry about the key behind number `n`. -/
def Owes (s : Source K V) (n : ℕ) (k : K) : Prop := ∃ m b, n < m ∧ s.entry m = some (k, b)

/-- An entry that does not tell what the key has now is not the last one about the key. -/
def Honest (s : Source K V) : Prop :=
  ∀ n k b, s.entry n = some (k, b) → b ≠ (s.content k).isSome → s.Owes n k

/-- The source after a transaction. -/
def commit (s : Source K V) (content : K → Option V) (es : List (K × Bool)) : Source K V where
  content := content
  base := s.base
  log := s.log ++ es

/-- The entries of a transaction name all that it changes, and tell what the keys have after it. -/
structure Commits (s : Source K V) (content : K → Option V) (es : List (K × Bool)) : Prop where
  logged : ∀ k, content k ≠ s.content k → ∃ b, (k, b) ∈ es
  tells : ∀ k b, (k, b) ∈ es → b = (content k).isSome

theorem entry_le_last {s : Source K V} {n : ℕ} {e : K × Bool} (h : s.entry n = some e) :
    s.base < n ∧ n ≤ s.last := by
  unfold entry at h
  split at h
  · rename_i hn
    have hlt : n - s.base - 1 < s.log.length := (List.getElem?_eq_some_iff.mp h).1
    refine ⟨hn, ?_⟩
    unfold last
    omega
  · cases h

theorem Owes.mono {s : Source K V} {m n : ℕ} {k : K} (h : s.Owes n k) (hle : m ≤ n) : s.Owes m k := by
  obtain ⟨i, b, hlt, hentry⟩ := h
  exact ⟨i, b, hle.trans_lt hlt, hentry⟩

/-- What the entry behind `n` is not about is owed behind it. -/
theorem Owes.succ {s : Source K V} {n : ℕ} {j k : K} {b : Bool} (h : s.Owes n k)
    (hentry : s.entry (n + 1) = some (j, b)) (hne : k ≠ j) : s.Owes (n + 1) k := by
  obtain ⟨m, c, hlt, hm⟩ := h
  rcases Nat.lt_or_eq_of_le (Nat.succ_le_of_lt hlt) with hlt | rfl
  · exact ⟨m, c, hlt, hm⟩
  · rw [hentry] at hm
    cases hm
    exact absurd rfl hne

theorem not_owes_last {s : Source K V} {n : ℕ} (hn : s.last ≤ n) (k : K) : ¬ s.Owes n k := by
  rintro ⟨m, b, hlt, hentry⟩
  have hle := (entry_le_last hentry).2
  omega

section Commit

variable {s : Source K V} {content : K → Option V} {es : List (K × Bool)}

theorem entry_commit {n : ℕ} {e : K × Bool} (h : s.entry n = some e) :
    (s.commit content es).entry n = some e := by
  unfold entry at h ⊢
  split at h
  · rename_i hn
    rw [if_pos (show (s.commit content es).base < n from hn)]
    obtain ⟨hlt, hget⟩ := List.getElem?_eq_some_iff.mp h
    show (s.log ++ es)[n - s.base - 1]? = some e
    rw [List.getElem?_append_left hlt]
    exact h
  · cases h

/-- The new entries lie behind the last number. -/
theorem entry_commit_new {n : ℕ} (hn : s.last < n) :
    (s.commit content es).entry n = es[n - s.last - 1]? := by
  unfold last at hn ⊢
  unfold entry
  rw [if_pos (show (s.commit content es).base < n from by show s.base < n; omega)]
  show (s.log ++ es)[n - s.base - 1]? = _
  rw [List.getElem?_append_right (by omega)]
  congr 1
  omega

theorem entry_commit_old {n : ℕ} (hn : n ≤ s.last) : (s.commit content es).entry n = s.entry n := by
  unfold last at hn
  unfold entry
  by_cases hbase : s.base < n
  · rw [if_pos hbase, if_pos (show (s.commit content es).base < n from hbase)]
    show (s.log ++ es)[n - s.base - 1]? = _
    rw [List.getElem?_append_left (by omega)]
  · rw [if_neg hbase, if_neg (show ¬ (s.commit content es).base < n from hbase)]

theorem Owes.commit {n : ℕ} {k : K} (h : s.Owes n k) : (s.commit content es).Owes n k := by
  obtain ⟨m, b, hlt, hentry⟩ := h
  exact ⟨m, b, hlt, entry_commit hentry⟩

/-- An entry of the transaction is owed behind every number given before. -/
theorem owes_of_mem {n : ℕ} {k : K} {b : Bool} (hmem : (k, b) ∈ es) (hn : n ≤ s.last) :
    (s.commit content es).Owes n k := by
  obtain ⟨i, hi, hget⟩ := List.getElem_of_mem hmem
  refine ⟨s.last + 1 + i, b, by omega, ?_⟩
  rw [entry_commit_new (by omega), show s.last + 1 + i - s.last - 1 = i from by omega,
    List.getElem?_eq_getElem hi, hget]

/-- Transactions keep the log honest. -/
theorem Honest.commit (h : s.Honest) (hes : s.Commits content es) :
    (s.commit content es).Honest := by
  intro n k b hentry hne
  rcases Nat.lt_or_ge s.last n with hn | hn
  · -- the new entries tell the truth
    rw [entry_commit_new hn] at hentry
    exact absurd (hes.tells k b (List.mem_of_getElem? hentry)) hne
  · rw [entry_commit_old hn] at hentry
    by_cases hsame : content k = s.content k
    · exact (h n k b hentry (hsame ▸ hne)).commit
    · obtain ⟨c, hmem⟩ := hes.logged k hsame
      exact owes_of_mem hmem hn

end Commit

end Source

variable [LinearOrder K]

/-! ## Snapshots -/

/-- What a snapshot has wrong about the keys before the cursor is still to be read in the log. -/
def Source.Fresh (s : Source K V) (snapshot : K → Option V) (seq : ℕ) (cursor : WithBot (WithTop K)) :
    Prop :=
  ∀ k : K, cursor < (k : WithTop K) → snapshot k ≠ s.content k → s.Owes seq k

namespace Source.Fresh

variable {s : Source K V} {snapshot content : K → Option V} {es : List (K × Bool)} {n : ℕ}
  {cursor : WithBot (WithTop K)}

theorem start (s : Source K V) (n : ℕ) (cursor : WithBot (WithTop K)) :
    s.Fresh s.content n cursor :=
  fun _ _ hne => absurd rfl hne

theorem commit (h : s.Fresh snapshot n cursor) (hes : s.Commits content es) (hn : n ≤ s.last) :
    (s.commit content es).Fresh snapshot n cursor := by
  intro k hk hne
  by_cases hsame : content k = s.content k
  · exact (h k hk (hsame ▸ hne)).commit
  · obtain ⟨b, hmem⟩ := hes.logged k hsame
    exact owes_of_mem hmem hn

theorem advance {cursor' : WithBot (WithTop K)} (h : s.Fresh snapshot n cursor)
    (hle : cursor ≤ cursor') : s.Fresh snapshot n cursor' :=
  fun k hk hne => h k (hle.trans_lt hk) hne

/-- The entries may be read again. -/
theorem rewind {m : ℕ} (h : s.Fresh snapshot n cursor) (hle : m ≤ n) : s.Fresh snapshot m cursor :=
  fun k hk hne => (h k hk hne).mono hle

/-- An entry about a key behind the cursor leaves a snapshot as good as it was. -/
theorem read {j : K} {b : Bool} (h : s.Fresh snapshot n cursor)
    (hentry : s.entry (n + 1) = some (j, b)) (hj : (j : WithTop K) ≤ cursor) :
    s.Fresh snapshot (n + 1) cursor := by
  intro k hk hne
  apply (h k hk hne).succ hentry
  rintro rfl
  exact absurd hk hj.not_gt

end Source.Fresh

/-! ## Replicas -/

/-- A key behind the cursor whose value differs is owed, unless it is in hand; a key before the cursor
has no value. -/
structure Replica.Follows (r : Replica K V) (s : Source K V) (hand : Option K) : Prop where
  behind : ∀ k : K, (k : WithTop K) ≤ r.cursor → some k ≠ hand → r.content k ≠ s.content k →
    s.Owes r.seq k
  ahead : ∀ k : K, r.cursor < (k : WithTop K) → r.content k = none

namespace Replica.Follows

variable {r : Replica K V} {s : Source K V} {hand : Option K}

/-- A replica that holds nothing follows from the start. -/
theorem start (s : Source K V) (n : ℕ) {content : K → Option V} (h : ∀ k, content k = none) :
    Follows ⟨content, n, ⊥⟩ s none where
  behind := fun _ hk => absurd hk (WithBot.bot_lt_coe _).not_ge
  ahead := fun k _ => h k

/-- A replica may read again. -/
theorem rewind {content : K → Option V} {m n : ℕ} {cursor : WithBot (WithTop K)}
    (h : Follows ⟨content, n, cursor⟩ s hand) (hle : m ≤ n) : Follows ⟨content, m, cursor⟩ s hand where
  behind := fun k hk hhand hne => (h.behind k hk hhand hne).mono hle
  ahead := h.ahead

/-- Transactions of the source. -/
theorem commit {content : K → Option V} {es : List (K × Bool)} (h : r.Follows s hand)
    (hes : s.Commits content es) (hseq : r.seq ≤ s.last) :
    r.Follows (s.commit content es) hand where
  behind := by
    intro k hk hhand hne
    by_cases hsame : content k = s.content k
    · exact (h.behind k hk hhand (hsame ▸ hne)).commit
    · obtain ⟨b, hmem⟩ := hes.logged k hsame
      exact Source.owes_of_mem hmem hseq
  ahead := h.ahead

section Log

variable {content : K → Option V} {n : ℕ} {cursor : WithBot (WithTop K)} {j : K} {b : Bool}

/-- An entry about a key before the cursor is passed over. -/
theorem pass (h : Follows ⟨content, n, cursor⟩ s none) (hentry : s.entry (n + 1) = some (j, b))
    (hj : cursor < (j : WithTop K)) : Follows ⟨content, n + 1, cursor⟩ s none where
  behind := by
    intro k hk hhand hne
    apply (h.behind k hk hhand hne).succ hentry
    rintro rfl
    exact absurd hk hj.not_ge
  ahead := h.ahead

/-- An entry is taken in hand. -/
theorem take (h : Follows ⟨content, n, cursor⟩ s none) (hentry : s.entry (n + 1) = some (j, b)) :
    Follows ⟨content, n + 1, cursor⟩ s (some j) where
  behind := by
    intro k hk hhand hne
    apply (h.behind k hk (Option.some_ne_none k) hne).succ hentry
    rintro rfl
    exact hhand rfl
  ahead := h.ahead

/-- The value of the source at the time is carried over. -/
theorem put [DecidableEq K] (h : Follows ⟨content, n, cursor⟩ s (some j))
    (hj : (j : WithTop K) ≤ cursor) :
    Follows ⟨Function.update content j (s.content j), n, cursor⟩ s none where
  behind := by
    intro k hk _ hne
    dsimp only at hne
    rcases eq_or_ne k j with rfl | hkj
    · exact absurd (Function.update_self ..) hne
    · rw [Function.update_of_ne hkj] at hne
      exact h.behind k hk (fun heq => hkj (Option.some.inj heq)) hne
  ahead := by
    intro k hk
    dsimp only at hk ⊢
    rw [Function.update_of_ne]
    · exact h.ahead k hk
    · rintro rfl
      exact absurd hk hj.not_gt

/-- An entry in hand that does not tell what the key has now may be dropped. -/
theorem drop (h : Follows ⟨content, n, cursor⟩ s (some j)) (howes : s.Owes n j) :
    Follows ⟨content, n, cursor⟩ s none where
  behind := by
    intro k hk _ hne
    rcases eq_or_ne k j with rfl | hkj
    · exact howes
    · exact h.behind k hk (fun heq => hkj (Option.some.inj heq)) hne
  ahead := h.ahead

/-- A removal is carried out, whatever the key has by then. -/
theorem remove [DecidableEq K] (h : Follows ⟨content, n, cursor⟩ s (some j)) (hhonest : s.Honest)
    (hentry : s.entry n = some (j, false)) (hj : (j : WithTop K) ≤ cursor) :
    Follows ⟨Function.update content j none, n, cursor⟩ s none := by
  cases hvalue : s.content j with
  | none =>
      rw [← hvalue]
      exact h.put hj
  | some v =>
      have howes : s.Owes n j := hhonest n j false hentry (by simp [hvalue])
      refine ⟨?_, ?_⟩
      · intro k hk _ hne
        dsimp only at hne
        rcases eq_or_ne k j with rfl | hkj
        · exact howes
        · rw [Function.update_of_ne hkj] at hne
          exact h.behind k hk (fun heq => hkj (Option.some.inj heq)) hne
      · intro k hk
        dsimp only
        rw [Function.update_apply]
        split
        · rfl
        · exact h.ahead k hk

/-- A key that has no value any more is skipped. -/
theorem skip (h : Follows ⟨content, n, cursor⟩ s (some j)) (hhonest : s.Honest)
    (hentry : s.entry n = some (j, true)) (hvalue : s.content j = none) :
    Follows ⟨content, n, cursor⟩ s none :=
  h.drop (hhonest n j true hentry (by simp [hvalue]))

/-- **Copying**: the cursor moves on, and the keys in between take the values of the snapshot. -/
theorem copy {snapshot content' : K → Option V} {cursor' : WithBot (WithTop K)}
    (h : Follows ⟨content, n, cursor⟩ s none) (hfresh : s.Fresh snapshot n cursor)
    (hcopied : ∀ k : K, cursor < (k : WithTop K) → (k : WithTop K) ≤ cursor' → content' k = snapshot k)
    (hkept : ∀ k : K, ¬ (cursor < (k : WithTop K) ∧ (k : WithTop K) ≤ cursor') → content' k = content k)
    (hle : cursor ≤ cursor') : Follows ⟨content', n, cursor'⟩ s none where
  behind := by
    intro k hk _ hne
    dsimp only at hk hne
    rcases lt_or_ge cursor (k : WithTop K) with hlt | hge
    · rw [hcopied k hlt hk] at hne
      exact hfresh k hlt hne
    · rw [hkept k fun hboth => absurd hboth.1 hge.not_gt] at hne
      exact h.behind k hge (Option.some_ne_none k) hne
  ahead := by
    intro k hk
    dsimp only at hk ⊢
    rw [hkept k fun hboth => absurd hboth.2 hk.not_ge]
    exact h.ahead k (hle.trans_lt hk)

/-- **At the end of the log the maps are equal.** -/
theorem content_eq (h : Follows ⟨content, n, ⊤⟩ s none) (hn : s.last ≤ n) : content = s.content := by
  funext k
  by_contra hne
  exact s.not_owes_last hn k (h.behind k le_top (Option.some_ne_none k) hne)

end Log

end Replica.Follows
