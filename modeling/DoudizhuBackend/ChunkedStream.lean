/-
# Decoding a stream that arrives in pieces

A `Reader` is a decoder that keeps a state between reads: `push` hands it a chunk, `poll`
asks it for the next item, which it returns, or reports that it needs more, or fails;
`start` is what it does before it turns to a new item.  It is used in two ways:

* `feed` pushes every chunk and polls until the reader needs more (a server that is told
  of each read);
* `pull` polls for one item and pushes a chunk whenever the reader needs more (a client
  that waits for an answer).

`Decodes Enc Tail R Rep` is what a reader owes a protocol.  `Rep st s` says that the state
`st` stands for the bytes `s` that have arrived and belong to no item returned so far: the
reader finds a whole item whatever follows it and waits on every proper prefix of one.
`Lossless enc R ok Rep` is the case of an encoder, with one encoding of each item.
Then both uses return the encoded items, whatever the chunks are (`Decodes.feed_eq`,
`Lossless.feed_eq`, `Lossless.pullMany_eq`), and so does a reader that is polled and given chunks in any
order (`Decodes.interleaved`).
-/
import Mathlib.Data.List.Infix
import Mathlib.Tactic.Common

namespace ChunkedStream

/-- A decoder that keeps a state between reads. -/
structure Reader (σ α β : Type) where
  /-- `none` is a malformed stream, no item in the result means that more is needed. -/
  poll : σ → Option (σ × Option α)
  push : σ → List β → σ
  start : σ → σ

variable {σ α β : Type}

/-! ## Servers and clients -/

/-- Poll until more is needed; the number bounds how often. -/
def drain (R : Reader σ α β) : ℕ → σ → Option (List α × σ)
  | 0, st => some ([], st)
  | n + 1, st =>
      match R.poll st with
      | none => none
      | some (st', none) => some ([], st')
      | some (st', some a) => (drain R n (R.start st')).map fun r => (a :: r.1, r.2)

/-- Read the chunks one after the other and drain after each; `bound` limits the draining. -/
def feed (R : Reader σ α β) (bound : σ → ℕ) : σ → List (List β) → Option (List α × σ)
  | st, [] => some ([], st)
  | st, c :: cs =>
      match drain R (bound (R.push st c)) (R.push st c) with
      | none => none
      | some (as, st') => (feed R bound st' cs).map fun r => (as ++ r.1, r.2)

/-- Ask for one item, reading a chunk whenever more is needed. -/
def pull (R : Reader σ α β) : σ → List (List β) → Option (α × σ × List (List β))
  | st, [] =>
      match R.poll st with
      | some (st', some a) => some (a, R.start st', [])
      | _ => none
  | st, c :: cs =>
      match R.poll st with
      | some (st', some a) => some (a, R.start st', c :: cs)
      | some (st', none) => pull R (R.push st' c) cs
      | none => none

/-- Ask for `n` items. -/
def pullMany (R : Reader σ α β) : ℕ → σ → List (List β) → Option (List α × σ × List (List β))
  | 0, st, cs => some ([], st, cs)
  | n + 1, st, cs =>
      match pull R st cs with
      | none => none
      | some (a, st', cs') => (pullMany R n st' cs').map fun r => (a :: r.1, r.2)

/-! ## Readers that decode -/

/-- What a reader owes a protocol in which an item may stand in the stream in several ways (`Enc`)
and some bytes may follow the last one (`Tail`). -/
structure Decodes (Enc : α → List β → Prop) (Tail : List β → Prop) (R : Reader σ α β)
    (Rep : σ → List β → Prop) : Prop where
  enc_ne_nil : ∀ a e, Enc a e → e ≠ []
  push : ∀ st s c, Rep st s → Rep (R.push st c) (s ++ c)
  whole : ∀ a e, Enc a e → ∀ st rest, Rep st (e ++ rest) →
    ∃ st', R.poll st = some (st', some a) ∧ Rep (R.start st') rest
  part : ∀ a e, Enc a e → ∀ st s, Rep st s → s <+: e → s ≠ e →
    ∃ st', R.poll st = some (st', none) ∧ Rep st' s
  tail : ∀ t, Tail t → ∀ st s, Rep st s → s <+: t → ∃ st', R.poll st = some (st', none) ∧ Rep st' s

variable {Enc : α → List β → Prop} {Tail : List β → Prop} {R : Reader σ α β}
  {Rep : σ → List β → Prop}

/-- Bytes that end inside or behind an item: the item is there, or more is needed. -/
theorem Decodes.poll_cases (h : Decodes Enc Tail R Rep) {a : α} {e : List β} (he : Enc a e) {st : σ}
    {s r t : List β} (hst : Rep st s) (hs : s ++ r = e ++ t) :
    (∃ s' st', s = e ++ s' ∧ s' ++ r = t ∧ R.poll st = some (st', some a) ∧
        Rep (R.start st') s') ∨
      ∃ st', R.poll st = some (st', none) ∧ Rep st' s := by
  rcases List.append_eq_append_iff.mp hs with ⟨d, hd, ht⟩ | ⟨d, hd, ht⟩
  · by_cases hnil : d = []
    · left
      subst hnil
      rw [List.append_nil] at hd
      have hst' : Rep st (e ++ []) := by rw [List.append_nil, hd]; exact hst
      obtain ⟨st', hpoll, hrep⟩ := h.whole a e he st [] hst'
      refine ⟨[], st', ?_, ?_, hpoll, hrep⟩
      · rw [List.append_nil, hd]
      · simpa using ht
    · right
      apply h.part a e he st s hst ⟨d, hd.symm⟩
      intro heq
      apply hnil
      have hlen := congrArg List.length hd
      rw [List.length_append, heq] at hlen
      exact List.eq_nil_of_length_eq_zero (by omega)
  · left
    subst hd
    obtain ⟨st', hpoll, hrep⟩ := h.whole a e he st d hst
    exact ⟨d, st', rfl, ht.symm, hpoll, hrep⟩

/-- **Draining a stream that has arrived up to some point**: the items that are complete,
and the bytes of the next one. -/
theorem Decodes.drain_spec (h : Decodes Enc Tail R Rep) (r : List β) {t : List β} (ht : Tail t) :
    ∀ (items : List (α × List β)), (∀ p ∈ items, Enc p.1 p.2) → ∀ (st : σ) (s : List β) (n : ℕ),
      Rep st s → s.length < n → s ++ r = items.flatMap Prod.snd ++ t →
      ∃ done left st' s', items = done ++ left ∧ drain R n st = some (done.map Prod.fst, st') ∧
        Rep st' s' ∧ s' ++ r = left.flatMap Prod.snd ++ t ∧ (r = [] → left = []) := by
  intro items
  induction items with
  | nil =>
      intro _ st s n hst hn hs
      obtain ⟨n, rfl⟩ : ∃ m, n = m + 1 := ⟨n - 1, by omega⟩
      obtain ⟨st', hpoll, hrep⟩ := h.tail t ht st s hst ⟨r, hs⟩
      refine ⟨[], [], st', s, rfl, ?_, hrep, hs, fun _ => rfl⟩
      simp [drain, hpoll]
  | cons p items ih =>
      intro hok st s n hst hn hs
      have hp : Enc p.1 p.2 := hok p List.mem_cons_self
      obtain ⟨n, rfl⟩ : ∃ m, n = m + 1 := ⟨n - 1, by omega⟩
      rw [List.flatMap_cons, List.append_assoc] at hs
      rcases h.poll_cases hp hst hs with ⟨s₁, st₁, rfl, hs₁, hpoll, hrep⟩ | ⟨st', hpoll, hrep⟩
      · have hpos : 0 < p.2.length := List.length_pos_iff.mpr (h.enc_ne_nil p.1 p.2 hp)
        have hlen : s₁.length < n := by
          rw [List.length_append] at hn
          omega
        obtain ⟨done, left, st', s', rfl, hdrain, hrep', hs', hend⟩ :=
          ih (fun q hq => hok q (List.mem_cons_of_mem _ hq)) (R.start st₁) s₁ n hrep hlen hs₁
        refine ⟨p :: done, left, st', s', rfl, ?_, hrep', hs', hend⟩
        simp [drain, hpoll, hdrain]
      · refine ⟨[], p :: items, st', s, rfl, by simp [drain, hpoll], hrep, by simpa using hs, ?_⟩
        -- with nothing to come, the bytes at hand hold the whole item
        rintro rfl
        rw [List.append_nil] at hs
        subst hs
        obtain ⟨st₂, hpoll₂, -⟩ := h.whole p.1 p.2 hp st _ hst
        rw [hpoll] at hpoll₂
        cases hpoll₂

theorem Decodes.feed_spec (h : Decodes Enc Tail R Rep) (bound : σ → ℕ)
    (hbound : ∀ st s, Rep st s → s.length < bound st) {t : List β} (ht : Tail t) :
    ∀ (cs : List (List β)) (st : σ) (s : List β) (items : List (α × List β)),
      (∀ p ∈ items, Enc p.1 p.2) → Rep st s → s ++ cs.flatten = items.flatMap Prod.snd ++ t →
      (cs = [] → items = []) →
      ∃ st', feed R bound st cs = some (items.map Prod.fst, st') ∧ Rep st' t := by
  intro cs
  induction cs with
  | nil =>
      intro st s items _ hst hs hend
      obtain rfl := hend rfl
      rw [List.flatten_nil, List.append_nil, List.flatMap_nil, List.nil_append] at hs
      subst hs
      exact ⟨st, rfl, hst⟩
  | cons c cs ih =>
      intro st s items hok hst hs _
      rw [List.flatten_cons, ← List.append_assoc] at hs
      have hpush := h.push st s c hst
      obtain ⟨done, left, st₁, s₁, rfl, hdrain, hrep, hs₁, hend⟩ :=
        h.drain_spec cs.flatten ht items hok _ (s ++ c) _ hpush (hbound _ _ hpush) hs
      obtain ⟨st', hrest, hrep'⟩ := ih st₁ s₁ left (fun p hp => hok p (List.mem_append_right _ hp))
        hrep hs₁ (fun hcs => hend (by rw [hcs]; rfl))
      refine ⟨st', ?_, hrep'⟩
      rw [feed, hdrain]
      simp [hrest]

/-- **A server that decodes loses nothing**: however the stream is cut into chunks, `feed` returns
its items in order and is left with what follows them. -/
theorem Decodes.feed_eq (h : Decodes Enc Tail R Rep) (bound : σ → ℕ)
    (hbound : ∀ st s, Rep st s → s.length < bound st) {st : σ} (hst : Rep st [])
    {cs : List (List β)} {items : List (α × List β)} (hok : ∀ p ∈ items, Enc p.1 p.2) {t : List β}
    (ht : Tail t) (hs : cs.flatten = items.flatMap Prod.snd ++ t) :
    ∃ st', feed R bound st cs = some (items.map Prod.fst, st') ∧ Rep st' t := by
  apply h.feed_spec bound hbound ht cs st [] items hok hst (by simpa using hs)
  rintro rfl
  cases items with
  | nil => rfl
  | cons p items =>
      rw [List.flatten_nil, List.flatMap_cons, List.append_assoc] at hs
      exact absurd (List.append_eq_nil_iff.mp hs.symm).1
        (h.enc_ne_nil p.1 p.2 (hok p List.mem_cons_self))

/-! ## Lossless readers -/

/-- What a reader owes the encoder of the items that satisfy `ok`. -/
structure Lossless (enc : α → List β) (R : Reader σ α β) (ok : α → Prop)
    (Rep : σ → List β → Prop) : Prop where
  enc_ne_nil : ∀ a, ok a → enc a ≠ []
  push : ∀ st s c, Rep st s → Rep (R.push st c) (s ++ c)
  empty : ∀ st, Rep st [] → ∃ st', R.poll st = some (st', none) ∧ Rep st' []
  whole : ∀ a, ok a → ∀ st rest, Rep st (enc a ++ rest) →
    ∃ st', R.poll st = some (st', some a) ∧ Rep (R.start st') rest
  part : ∀ a, ok a → ∀ st s, Rep st s → s <+: enc a → s ≠ enc a →
    ∃ st', R.poll st = some (st', none) ∧ Rep st' s

variable {enc : α → List β} {ok : α → Prop}

/-- A lossless reader decodes: there is one encoding of each item and nothing behind the last. -/
theorem Lossless.decodes (h : Lossless enc R ok Rep) :
    Decodes (fun a e => ok a ∧ e = enc a) (· = []) R Rep where
  enc_ne_nil := by
    rintro a _ ⟨ha, rfl⟩
    exact h.enc_ne_nil a ha
  push := h.push
  whole := by
    rintro a _ ⟨ha, rfl⟩
    exact h.whole a ha
  part := by
    rintro a _ ⟨ha, rfl⟩
    exact h.part a ha
  tail := by
    rintro _ rfl st s hst hs
    obtain rfl := List.prefix_nil.mp hs
    exact h.empty st hst

/-- **A server loses nothing**: however the encoded items are cut into chunks, `feed`
returns them in order and keeps no byte. -/
theorem Lossless.feed_eq (h : Lossless enc R ok Rep) (bound : σ → ℕ)
    (hbound : ∀ st s, Rep st s → s.length < bound st) {st : σ} (hst : Rep st [])
    {cs : List (List β)} {as : List α} (hok : ∀ a ∈ as, ok a)
    (hs : cs.flatten = as.flatMap enc) :
    ∃ st', feed R bound st cs = some (as, st') ∧ Rep st' [] := by
  have hitems : ∀ p ∈ as.map fun a => (a, enc a), ok p.1 ∧ p.2 = enc p.1 := by
    intro p hp
    obtain ⟨a, ha, rfl⟩ := List.mem_map.mp hp
    exact ⟨hok a ha, rfl⟩
  have hflat : (as.map fun a => (a, enc a)).flatMap Prod.snd = as.flatMap enc := by
    rw [List.flatMap_map]
  have hfst : (as.map fun a => (a, enc a)).map Prod.fst = as := by
    rw [List.map_map]
    exact List.map_id as
  have hfeed := h.decodes.feed_eq bound hbound hst hitems rfl (by rw [hflat, List.append_nil, hs])
  rwa [hfst] at hfeed

/-- Asking for the item that comes next. -/
theorem Lossless.pull_spec (h : Lossless enc R ok Rep) {a : α} (ha : ok a) (t : List β) :
    ∀ (cs : List (List β)) (st : σ) (s : List β), Rep st s → s ++ cs.flatten = enc a ++ t →
      ∃ st' s' cs', pull R st cs = some (a, st', cs') ∧ Rep st' s' ∧ s' ++ cs'.flatten = t ∧
        cs' <:+ cs := by
  intro cs
  induction cs with
  | nil =>
      intro st s hst hs
      rw [List.flatten_nil, List.append_nil] at hs
      subst hs
      obtain ⟨st', hpoll, hrep⟩ := h.whole a ha st t hst
      refine ⟨R.start st', t, [], ?_, hrep, by simp, List.suffix_rfl⟩
      simp [pull, hpoll]
  | cons c cs ih =>
      intro st s hst hs
      rcases h.decodes.poll_cases ⟨ha, rfl⟩ hst hs with
        ⟨s', st', rfl, hs', hpoll, hrep⟩ | ⟨st', hpoll, hrep⟩
      · refine ⟨R.start st', s', c :: cs, ?_, hrep, hs', List.suffix_rfl⟩
        simp [pull, hpoll]
      · rw [List.flatten_cons, ← List.append_assoc] at hs
        obtain ⟨st'', s', cs', hpull, hrep', hs', hsuf⟩ :=
          ih (R.push st' c) (s ++ c) (h.push st' s c hrep) hs
        refine ⟨st'', s', cs', ?_, hrep', hs', hsuf.trans (List.suffix_cons c cs)⟩
        simp [pull, hpoll, hpull]

/-- **A client loses nothing**: asking for as many items as were encoded returns them in
order, and no chunk and no byte is left. -/
theorem Lossless.pullMany_eq (h : Lossless enc R ok Rep) :
    ∀ {as : List α}, (∀ a ∈ as, ok a) → ∀ {st : σ} {s : List β} {cs : List (List β)},
      Rep st s → (∀ c ∈ cs, c ≠ []) → s ++ cs.flatten = as.flatMap enc →
      ∃ st', pullMany R as.length st cs = some (as, st', []) ∧ Rep st' [] := by
  intro as
  induction as with
  | nil =>
      intro _ st s cs hst hne hs
      obtain ⟨rfl, hflat⟩ := List.append_eq_nil_iff.mp hs
      have hcs : cs = [] := by
        cases cs with
        | nil => rfl
        | cons c cs =>
            rw [List.flatten_cons] at hflat
            exact absurd (List.append_eq_nil_iff.mp hflat).1 (hne c List.mem_cons_self)
      subst hcs
      exact ⟨st, rfl, hst⟩
  | cons a as ih =>
      intro hok st s cs hst hne hs
      rw [List.flatMap_cons] at hs
      obtain ⟨st₁, s₁, cs₁, hpull, hrep, hs₁, hsuf⟩ :=
        h.pull_spec (hok a List.mem_cons_self) (as.flatMap enc) cs st s hst hs
      obtain ⟨st', hrest, hrep'⟩ := ih (fun b hb => hok b (List.mem_cons_of_mem _ hb)) hrep
        (fun c hc => hne c (hsuf.mem hc)) hs₁
      refine ⟨st', ?_, hrep'⟩
      simp [pullMany, hpull, hrest]

/-! ## Chunks and polls in any order -/

/-- Chunks are pushed and items asked for in any order: the bytes that have arrived, the items that were
returned, and the state of the reader behind them. -/
inductive Interleaved (R : Reader σ α β) (st₀ : σ) : List β → List α → σ → Prop
  | start : Interleaved R st₀ [] [] st₀
  | push {s as st} (h : Interleaved R st₀ s as st) (c : List β) : Interleaved R st₀ (s ++ c) as (R.push st c)
  | wait {s as st st'} (h : Interleaved R st₀ s as st) (hpoll : R.poll st = some (st', none)) :
      Interleaved R st₀ s as st'
  | item {s as st st' a} (h : Interleaved R st₀ s as st) (hpoll : R.poll st = some (st', some a)) :
      Interleaved R st₀ s (as ++ [a]) (R.start st')

/-- A poll in the course of a stream of items: it returns the next one, or waits for it. -/
theorem Decodes.poll_stream (h : Decodes Enc Tail R Rep) {t : List β} (ht : Tail t) {items : List (α × List β)}
    (hok : ∀ p ∈ items, Enc p.1 p.2) {st : σ} {s r : List β} (hst : Rep st s)
    (hs : s ++ r = items.flatMap Prod.snd ++ t) :
    (∃ st', R.poll st = some (st', none) ∧ Rep st' s) ∨
      ∃ p left s' st', items = p :: left ∧ R.poll st = some (st', some p.1) ∧ Rep (R.start st') s' ∧
        s' ++ r = left.flatMap Prod.snd ++ t := by
  cases items with
  | nil =>
      left
      exact h.tail t ht st s hst ⟨r, by simpa using hs⟩
  | cons p left =>
      rw [List.flatMap_cons, List.append_assoc] at hs
      rcases h.poll_cases (hok p List.mem_cons_self) hst hs with ⟨s', st', -, hs', hpoll, hrep⟩ | hwait
      · exact Or.inr ⟨p, left, s', st', rfl, hpoll, hrep, hs'⟩
      · exact Or.inl hwait

/-- **Nothing is lost in any order of chunks and polls**: the items that were returned are the first ones
of the stream, and the reader stands where they end. -/
theorem Decodes.interleaved (h : Decodes Enc Tail R Rep) {t : List β} (ht : Tail t)
    {items : List (α × List β)} (hok : ∀ p ∈ items, Enc p.1 p.2) {st₀ : σ} (hst₀ : Rep st₀ []) {s : List β}
    {as : List α} {st : σ} (hread : Interleaved R st₀ s as st) {r : List β}
    (hs : s ++ r = items.flatMap Prod.snd ++ t) :
    ∃ done left s', items = done ++ left ∧ as = done.map Prod.fst ∧ Rep st s' ∧
      s' ++ r = left.flatMap Prod.snd ++ t := by
  induction hread generalizing r with
  | start => exact ⟨[], items, [], rfl, rfl, hst₀, hs⟩
  | push _ c ih =>
      rw [List.append_assoc] at hs
      obtain ⟨done, left, s', hitems, has, hrep, hs'⟩ := ih hs
      exact ⟨done, left, s' ++ c, hitems, has, h.push _ _ c hrep, by rw [List.append_assoc, hs']⟩
  | wait _ hpoll ih =>
      obtain ⟨done, left, s', hitems, has, hrep, hs'⟩ := ih hs
      have hleft : ∀ p ∈ left, Enc p.1 p.2 := fun p hp => hok p (hitems ▸ List.mem_append_right _ hp)
      rcases h.poll_stream ht hleft hrep hs' with ⟨st', hwait, hrep'⟩ | ⟨p, _, _, st', _, hitem, _, _⟩
      · rw [hpoll] at hwait
        cases hwait
        exact ⟨done, left, s', hitems, has, hrep', hs'⟩
      · rw [hpoll] at hitem
        cases hitem
  | item _ hpoll ih =>
      obtain ⟨done, left, s', hitems, has, hrep, hs'⟩ := ih hs
      have hleft : ∀ p ∈ left, Enc p.1 p.2 := fun p hp => hok p (hitems ▸ List.mem_append_right _ hp)
      rcases h.poll_stream ht hleft hrep hs' with ⟨st', hwait, _⟩ | ⟨p, left', s'', st', rfl, hitem, hrep', hs''⟩
      · rw [hpoll] at hwait
        cases hwait
      · rw [hpoll] at hitem
        cases hitem
        refine ⟨done ++ [p], left', s'', ?_, ?_, hrep', hs''⟩
        · rw [hitems, List.append_assoc, List.singleton_append]
        · rw [has, List.map_append, List.map_singleton]

/-- A reader that waits after the last chunk has returned all items. -/
theorem Decodes.interleaved_all (h : Decodes Enc Tail R Rep) {t : List β} (ht : Tail t)
    {items : List (α × List β)} (hok : ∀ p ∈ items, Enc p.1 p.2) {st₀ : σ} (hst₀ : Rep st₀ []) {as : List α}
    {st st' : σ} (hread : Interleaved R st₀ (items.flatMap Prod.snd ++ t) as st)
    (hpoll : R.poll st = some (st', none)) : as = items.map Prod.fst := by
  obtain ⟨done, left, s', hitems, has, hrep, hs'⟩ := h.interleaved ht hok hst₀ hread (List.append_nil _)
  cases left with
  | nil => rw [has, hitems, List.append_nil]
  | cons p left =>
      have hp : Enc p.1 p.2 := hok p (hitems ▸ List.mem_append_right _ List.mem_cons_self)
      rw [List.append_nil, List.flatMap_cons, List.append_assoc] at hs'
      obtain ⟨st'', hitem, -⟩ := h.whole p.1 p.2 hp st _ (hs' ▸ hrep)
      rw [hpoll] at hitem
      cases hitem

end ChunkedStream
