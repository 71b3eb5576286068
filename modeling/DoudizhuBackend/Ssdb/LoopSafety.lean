/-
# No link is used after it was deleted

Every step of the loop and of the workers is made of moves of links between their places, and keeps what
`Placed` says.  So a step always finds the link that it needs, and `link_count` is the number of links
(`loop_safe`).

* `Kept`: the links are in their places while some are being worked on;
* `Awaits`: what the events that are still to be worked off are about;
* `Orderly`: the invariant of the loop.
-/
import DoudizhuBackend.Ssdb.LinkPlaces
import DoudizhuBackend.GuardedRun
import Mathlib.Data.Set.Card

namespace Ssdb

namespace NetServer

/-! ## Places -/

variable {σ : Type} {cfg : ServerConfig σ} {s s' : NetServer σ} {hand : List ℕ} {id : ℕ} {c : Conn}

/-- The descriptors of the links that exist. -/
def fdOf (s : NetServer σ) : ℕ → Option ℕ := fun id => (s.links id).map Conn.fd

/-- The links are where they belong while those in `hand` are worked on, and `link_count` counts the
links but those with threads of their own. -/
structure Kept (hand : List ℕ) (s : NetServer σ) : Prop where
  placed : Placed hand s.readyList s.readyList2 s.away s.fdOf s.fdes
  fresh : ∀ id, s.next ≤ id → s.links id = none
  counted : ∃ opened : Finset ℕ, (∀ id, id ∈ opened ↔ s.links id ≠ none ∧ id ∉ s.backend) ∧
    s.linkCount = opened.card

/-- The descriptor of a link that is there. -/
theorem fdOf_eq (hc : s.links id = some c) : s.fdOf id = some c.fd := by
  rw [fdOf, hc]
  rfl

/-- A change of a link keeps the descriptors. -/
theorem fdOf_setLink {c' : Conn} (hc : s.links id = some c) (hfd : c'.fd = c.fd) :
    (s.setLink id c').fdOf = s.fdOf := by
  funext i
  by_cases hi : i = id
  · simp [fdOf, setLink, hi, hc, hfd]
  · simp [fdOf, setLink, hi]

/-- A deleted link has no descriptor. -/
theorem fdOf_deleteLink (c : Conn) : (s.deleteLink id c).fdOf = Function.update s.fdOf id none := by
  funext i
  by_cases hi : i = id
  · simp [fdOf, deleteLink, hi]
  · simp [fdOf, deleteLink, hi]

theorem links_ne_none_setLink {c' : Conn} (hc : s.links id = some c) (i : ℕ) :
    (s.setLink id c').links i ≠ none ↔ s.links i ≠ none := by
  by_cases hi : i = id
  · simp [setLink, hi, hc]
  · simp [setLink, hi]

theorem away_setPool {writer : Bool} {p : Pool σ} (xs ys : List ℕ)
    (hp : (xs ++ p.held).Perm (ys ++ (s.pool writer).held)) :
    (xs ++ (s.setPool writer p).away).Perm (ys ++ s.away) := by
  cases writer with
  | false =>
      simp only [away, setPool, Bool.false_eq_true, if_false]
      rw [← List.append_assoc, ← List.append_assoc, ← List.append_assoc, ← List.append_assoc]
      exact (List.Perm.append_right _ hp).append_right _
  | true =>
      simp only [away, setPool, if_true]
      have hmove : ∀ (zs : List ℕ) (q : List ℕ), (zs ++ (s.reader.held ++ q ++ s.backend)).Perm
          (s.reader.held ++ (zs ++ q) ++ s.backend) := by
        intro zs q
        rw [← List.append_assoc, ← List.append_assoc, ← List.append_assoc]
        exact ((List.perm_append_comm).append_right _).append_right _
      exact (hmove xs _).trans (((hp.append_left _).append_right _).trans (hmove ys _).symm)

/-! ## Moves -/

theorem Kept.setLink {c' : Conn} (h : s.Kept hand) (hc : s.links id = some c) (hfd : c'.fd = c.fd) :
    (s.setLink id c').Kept hand where
  placed := by
    rw [fdOf_setLink hc hfd]
    exact h.placed
  fresh := by
    intro i hi
    by_contra hlive
    exact (links_ne_none_setLink hc i).mp hlive (h.fresh i hi)
  counted := by
    obtain ⟨opened, hopened, hcount⟩ := h.counted
    refine ⟨opened, fun i => ?_, hcount⟩
    rw [hopened, links_ne_none_setLink hc]
    rfl

/-- Neither the data nor the note of what was answered are about places. -/
theorem Kept.noted (h : s.Kept hand) (data : σ) (answered : List Answered) :
    ({ s with data := data, answered := answered } : NetServer σ).Kept hand :=
  ⟨h.placed, h.fresh, h.counted⟩

theorem Kept.setFdes {t : Fdevents} (h : s.Kept hand)
    (ht : Placed hand s.readyList s.readyList2 s.away s.fdOf t) :
    ({ s with fdes := t } : NetServer σ).Kept hand :=
  ⟨ht, h.fresh, h.counted⟩

theorem Kept.deleteLink (h : s.Kept (id :: hand)) (hc : s.links id = some c) :
    (s.deleteLink id c).Kept hand where
  placed := by
    rw [fdOf_deleteLink]
    exact h.placed.delete (fdOf_eq hc)
  fresh := by
    intro i hi
    by_cases hii : i = id
    · simp [NetServer.deleteLink, hii]
    · simpa [NetServer.deleteLink, hii] using h.fresh i hi
  counted := by
    obtain ⟨opened, hopened, hcount⟩ := h.counted
    have hnodup := h.placed.nodup
    have hback : id ∉ s.backend := by
      intro hmem
      exact (List.nodup_cons.mp hnodup).1 (by simp [away, hmem])
    have hmem : id ∈ opened := (hopened id).mpr ⟨by simp [hc], hback⟩
    refine ⟨opened.erase id, fun i => ?_, ?_⟩
    · by_cases hi : i = id
      · simp [NetServer.deleteLink, hi]
      · simp [NetServer.deleteLink, hi, hopened]
    · rw [Finset.card_erase_of_mem hmem]
      have hpos : 0 < opened.card := Finset.card_pos.mpr ⟨id, hmem⟩
      simp only [NetServer.deleteLink, hcount]
      omega

theorem Kept.settles {second : Bool} (h : s.Kept (id :: hand)) (hc : s.links id = some c)
    (hs' : s.Settles id c second s') : s'.Kept hand := by
  cases hs' with
  | deleted => exact h.deleteLink hc
  | polled hc' ht hinput =>
      rename_i c' t
      have hset := h.setLink hc hc'.fd
      have hlive : (s.setLink id c').fdOf id = some c.fd := by
        rw [fdOf_setLink hc hc'.fd, fdOf_eq hc]
      have hout : Placed (id :: hand) s.readyList s.readyList2 s.away (s.setLink id c').fdOf t := by
        rcases ht with rfl | rfl
        · exact hset.placed
        · exact hset.placed.set hlive .output
      refine ⟨(hout.set hlive .input).poll hlive ?_, hset.fresh, hset.counted⟩
      exact (t.set_flags _ _ _).mpr (Or.inr ⟨rfl, rfl⟩)
  | pushed hc' ht =>
      rename_i c' t
      have hset := h.setLink hc hc'.fd
      have hlive : (s.setLink id c').fdOf id = some c.fd := by
        rw [fdOf_setLink hc hc'.fd, fdOf_eq hc]
      have hout : Placed (id :: hand) s.readyList s.readyList2 s.away (s.setLink id c').fdOf t := by
        rcases ht with rfl | rfl
        · exact hset.placed
        · exact hset.placed.set hlive .output
      have hclr : Placed (id :: hand) s.readyList s.readyList2 s.away (s.setLink id c').fdOf (t.clr c.fd .input) :=
        hout.clr hlive (by simp)
      cases second with
      | false => exact ⟨hclr.push, hset.fresh, hset.counted⟩
      | true =>
          refine ⟨hclr.pushSecond hlive ?_, hset.fresh, hset.counted⟩
          simp [t.clr_flags]

theorem Kept.replies {kind : AnswerKind} (h : s.Kept hand) (hc : s.links id = some c)
    (hs' : s.Replies cfg id c kind s') : s'.Kept hand := by
  obtain ⟨hfd, -⟩ := hs'
  exact (h.setLink hc hfd).noted _ _

/-- The jobs of a pool change; the link in hand may go to it. -/
theorem Kept.setPool {writer : Bool} {p : Pool σ} (h : s.Kept hand) (hp : p.held.Perm (s.pool writer).held) :
    (s.setPool writer p).Kept hand := by
  have haway := away_setPool [] [] hp
  cases writer <;> exact ⟨h.placed.perm haway.symm, h.fresh, h.counted⟩

theorem Kept.lend {writer : Bool} {p : Pool σ} (h : s.Kept (id :: hand)) (hc : s.links id = some c)
    (hp : p.held.Perm (id :: (s.pool writer).held)) :
    ({ s.setPool writer p with fdes := s.fdes.del c.fd } : NetServer σ).Kept hand := by
  have haway := away_setPool [] [id] hp
  have hplaced := (h.placed.lend (fdOf_eq hc)).perm haway.symm
  cases writer <;> exact ⟨hplaced, h.fresh, h.counted⟩

/-- A link that is fetched from a pool is in the hand of the loop. -/
theorem Kept.fetch {writer : Bool} {p : Pool σ} (h : s.Kept hand)
    (hp : (id :: p.held).Perm (s.pool writer).held) : (s.setPool writer p).Kept (id :: hand) := by
  have haway := away_setPool [id] [] hp
  have hplaced := (h.placed.perm haway.symm).fetch
  cases writer <;> exact ⟨hplaced, h.fresh, h.counted⟩

/-- A link that is handed to a backend thread is there. -/
theorem Kept.toBackend (h : s.Kept (id :: hand)) (hc : s.links id = some c) :
    ({ s with
      fdes := s.fdes.del c.fd
      linkCount := s.linkCount - 1
      backend := id :: s.backend } : NetServer σ).Kept hand where
  placed := by
    refine (h.placed.lend (fdOf_eq hc)).perm ?_
    exact List.perm_middle.symm
  fresh := h.fresh
  counted := by
    obtain ⟨opened, hopened, hcount⟩ := h.counted
    have hback : id ∉ s.backend := by
      intro hmem
      exact (List.nodup_cons.mp h.placed.nodup).1 (by simp [away, hmem])
    have hmem : id ∈ opened := (hopened id).mpr ⟨by simp [hc], hback⟩
    refine ⟨opened.erase id, fun i => ?_, ?_⟩
    · rw [Finset.mem_erase, hopened, List.mem_cons]
      tauto
    · rw [Finset.card_erase_of_mem hmem]
      have hpos : 0 < opened.card := Finset.card_pos.mpr ⟨id, hmem⟩
      simp only [hcount]
      omega

/-- A request that has been handled leaves the link in one place. -/
theorem Kept.handles (h : s.Kept (id :: hand)) (hc : s.links id = some c)
    (hs' : s.Handles cfg id c s') : s'.Kept hand := by
  cases hs' with
  | settled hkind hs₁ hc₁ hs' => exact (h.replies hc hs₁).settles hc₁ hs'
  | lent writer p hallowed => exact h.lend hc Pool.held_push
  | backend hallowed hs₁ =>
      obtain ⟨c₁, hc₁, hfd⟩ := hs₁.link
      have hback := (h.replies hc hs₁).toBackend hc₁
      rwa [hfd] at hback

/-- So does a link taken from the list. -/
theorem Kept.takes (h : s.Kept (id :: hand)) (hc : s.links id = some c) (hs' : s.Takes cfg id c s') :
    s'.Kept hand := by
  have hself : ∀ c' : Conn, (s.setLink id c').links id = some c' := fun c' => Function.update_self ..
  cases hs' with
  | deleted => exact h.deleteLink hc
  | waits hrecv =>
      rename_i input
      have hset : (s.setLink id { c with input := input, recvData := [] }).Kept (id :: hand) := h.setLink hc rfl
      refine ⟨(hset.placed.set (fdOf_eq (hself _)) .input).poll (fdOf_eq (hself _)) ?_, hset.fresh, hset.counted⟩
      exact (s.fdes.set_flags _ _ _).mpr (Or.inr ⟨rfl, rfl⟩)
  | handles hrecv hreq hs' =>
      rename_i input req
      have hset : (s.setLink id { c with input := input, recvData := req }).Kept (id :: hand) := h.setLink hc rfl
      exact hset.handles (hself _) hs'

/-- So does an event that has been served. -/
theorem Kept.serves {readable : Bool} (h : s.Kept hand) (hc : s.links id = some c)
    (hout : readable = true → id ∉ hand ++ s.readyList ++ s.readyList2 ++ s.away)
    (hs' : s.Serves id c readable s') : s'.Kept hand := by
  have hfd : s.fdOf id = some c.fd := fdOf_eq hc
  have hclr : ∀ t, (t = s.fdes ∨ t = s.fdes.clr c.fd .output) →
      Placed hand s.readyList s.readyList2 s.away s.fdOf t := by
    rintro t (rfl | rfl)
    · exact h.placed
    · exact h.placed.clr hfd (by simp)
  cases hs' with
  | writes hc' ht => exact Kept.setLink (h.setFdes (hclr _ ht)) hc hc'.fd
  | reads hc' ht =>
      rename_i c' bytes t
      have hpush := ((hclr t ht).pick (by simp [hfd]) (hout rfl)).push
      exact Kept.setLink (s := { s.pushReady false id with fdes := t }) ⟨hpush, h.fresh, h.counted⟩ hc hc'.fd

/-- So does a job that a worker has carried out. -/
theorem Kept.carries {writer : Bool} {k : ℕ} {job : Job σ} (h : s.Kept hand)
    (hk : (s.pool writer).workers[k]? = some (.taken job)) (hc : s.links job.link = some c)
    (hs' : s.Carries cfg writer k job c s') : s'.Kept hand := by
  obtain ⟨result, hs₁, hc₁, hc₂⟩ := hs'
  have hset := (h.replies hc hs₁).setLink hc₁ hc₂.fd
  refine hset.setPool ?_
  have hpool := hs₁.pool writer
  rename_i s₁ c₁ c₂
  have hsame : (s₁.setLink job.link c₂).pool writer = s.pool writer := by
    rw [← hpool]
    cases writer <;> rfl
  rw [hsame]
  exact Pool.held_run result hk

/-- A new link is in one place. -/
theorem Kept.acceptLink (h : s.Kept hand) (accepted : Option (ℕ × Bytes))
    (hclosed : ∀ a ∈ accepted, s.Closed a.1) : (s.acceptLink cfg accepted).Kept hand := by
  cases accepted with
  | none => exact h
  | some a =>
      obtain ⟨fd, ip⟩ := a
      rw [NetServer.acceptLink]
      split
      · have hnext : s.links s.next = none := h.fresh s.next le_rfl
        have hnew : s.fdOf s.next = none := by rw [fdOf, hnext]; rfl
        have hfd : ∀ i, s.fdOf i ≠ some fd := by
          intro i hi
          obtain ⟨c, hc, hcfd⟩ := Option.map_eq_some_iff.mp hi
          exact hclosed (fd, ip) rfl i c hc hcfd
        constructor
        case placed =>
          have hadd := h.placed.accept hnew hfd
          have hsame : Function.update s.fdOf s.next (some fd) =
              fun i => (Function.update s.links s.next (some (.new fd)) i).map Conn.fd := by
            funext i
            by_cases hi : i = s.next
            · simp [hi, Conn.new]
            · simp [hi, fdOf]
          rwa [hsame] at hadd
        case fresh =>
          intro i hi
          dsimp only at hi ⊢
          have hne : i ≠ s.next := by omega
          rw [Function.update_of_ne hne]
          exact h.fresh i (Nat.le_of_succ_le hi)
        case counted =>
          obtain ⟨opened, hopened, hcount⟩ := h.counted
          have hnotin : s.next ∉ opened := fun hmem => ((hopened s.next).mp hmem).1 hnext
          refine ⟨insert s.next opened, fun i => ?_, ?_⟩
          · rw [Finset.mem_insert, hopened]
            by_cases hi : i = s.next
            · have hback : s.next ∉ s.backend := by
                intro hmem
                exact h.placed.live s.next (by simp [away, hmem]) hnew
              simp [hi, hback]
            · simp [hi]
          · rw [Finset.card_insert_of_notMem hnotin]
            simp [hcount]
      · exact h

/-- A link that its backend thread deletes is in no place. -/
theorem Kept.closeBackend (h : s.Kept []) (hid : id ∈ s.backend) :
    ({ s with backend := s.backend.erase id, links := Function.update s.links id none } :
      NetServer σ).Kept [] where
  placed := by
    have haway : s.away.Perm (id :: (s.reader.held ++ s.writer.held ++ s.backend.erase id)) :=
      ((List.perm_cons_erase hid).append_left _).trans List.perm_middle
    have hleft := (h.placed.perm haway).leave
    have hsame : Function.update s.fdOf id none =
        fun i => (Function.update s.links id none i).map Conn.fd := by
      funext i
      by_cases hi : i = id
      · simp [hi]
      · simp [hi, fdOf]
    rwa [hsame] at hleft
  fresh := by
    intro i hi
    by_cases hii : i = id
    · simp [hii]
    · simpa [hii] using h.fresh i hi
  counted := by
    obtain ⟨opened, hopened, hcount⟩ := h.counted
    have hnodup : s.backend.Nodup := (List.nodup_append.mp h.placed.nodup).2.1.of_append_right
    refine ⟨opened, fun i => ?_, hcount⟩
    rw [hopened]
    by_cases hi : i = id
    · simp [hi, hid]
    · simp [hi, List.mem_erase_of_ne]

/-! ## Events -/

/-- The events that are still to be worked off: a link that can be read is not in the ready list. -/
structure Awaits (s : NetServer σ) (es : List ServerEvent) : Prop where
  fds : (es.filterMap ServerEvent.fd).Nodup
  pools : (es.filterMap ServerEvent.pool).Nodup
  client : ∀ fd events, .client fd events ∈ es → (∃ flag, (s.fdes fd).flags flag) ∧
    (events .input → (s.fdes fd).link ∉ s.readyList)
  result : ∀ writer, .result writer ∈ es → (s.pool writer).results ≠ []

/-- A step for the link `id` with the descriptor `fd`. -/
structure Touches (s : NetServer σ) (id fd : ℕ) (s' : NetServer σ) : Prop where
  phase : s'.phase = s.phase
  second : s'.readyList2 = s.readyList2
  pool : ∀ writer, s'.pool writer = s.pool writer
  fdes : ∀ fd', fd' ≠ fd → s'.fdes fd' = s.fdes fd'
  ready : ∀ i ∈ s'.readyList, i ∈ s.readyList ∨ i = id

/-- The descriptors among the events. -/
theorem mem_fds {es : List ServerEvent} {fd : ℕ} :
    fd ∈ es.filterMap ServerEvent.fd ↔ ∃ events, ServerEvent.client fd events ∈ es := by
  rw [List.mem_filterMap]
  constructor
  · rintro ⟨e, he, hfd⟩
    cases e with
    | client fd' events =>
        obtain rfl : fd' = fd := Option.some.inj hfd
        exact ⟨events, he⟩
    | accept => cases hfd
    | result => cases hfd
  · rintro ⟨events, he⟩
    exact ⟨_, he, rfl⟩

/-- An event that is still to come is that of the link with its descriptor. -/
theorem Awaits.owner {es : List ServerEvent} (h : s.Awaits es) (hs : s.Kept hand) {fd : ℕ}
    (hfd : fd ∈ es.filterMap ServerEvent.fd) : s.fdOf (s.fdes fd).link = some fd := by
  obtain ⟨events, hmem⟩ := mem_fds.mp hfd
  obtain ⟨flag, hflag⟩ := (h.client fd events hmem).1
  exact hs.placed.owner fd flag hflag

/-- Events still to come stay valid while their descriptors are not touched. -/
theorem Awaits.frame {es : List ServerEvent} (h : s.Awaits es)
    (hfdes : ∀ fd ∈ es.filterMap ServerEvent.fd, s'.fdes fd = s.fdes fd)
    (hready : ∀ fd ∈ es.filterMap ServerEvent.fd, (s.fdes fd).link ∈ s'.readyList →
      (s.fdes fd).link ∈ s.readyList)
    (hpool : ∀ writer, ServerEvent.result writer ∈ es → (s'.pool writer).results ≠ []) : s'.Awaits es where
  fds := h.fds
  pools := h.pools
  client := by
    intro fd events hmem
    have hfd := mem_fds.mpr ⟨events, hmem⟩
    rw [hfdes fd hfd]
    obtain ⟨hflag, hout⟩ := h.client fd events hmem
    exact ⟨hflag, fun hin hlink => hout hin (hready fd hfd hlink)⟩
  result := hpool

/-- Events for other links wait for a step. -/
theorem Awaits.touches {es : List ServerEvent} {fd : ℕ} (h : s.Awaits es) (hs' : s.Touches id fd s')
    (hfd : fd ∉ es.filterMap ServerEvent.fd)
    (hid : ∀ fd' ∈ es.filterMap ServerEvent.fd, (s.fdes fd').link ≠ id) : s'.Awaits es := by
  refine h.frame (fun fd' hfd' => ?_) (fun fd' hfd' hlink => ?_) (fun writer hmem => ?_)
  · refine hs'.fdes fd' ?_
    rintro rfl
    exact hfd hfd'
  · exact (hs'.ready _ hlink).resolve_right (hid fd' hfd')
  · rw [hs'.pool]
    exact h.result writer hmem

/-- The rest of the events is still to come. -/
theorem Awaits.tail {e : ServerEvent} {es : List ServerEvent} (h : s.Awaits (e :: es)) : s.Awaits es where
  fds := by
    have hfds := h.fds
    rw [List.filterMap_cons] at hfds
    split at hfds
    · exact hfds
    · exact (List.nodup_cons.mp hfds).2
  pools := by
    have hpools := h.pools
    rw [List.filterMap_cons] at hpools
    split at hpools
    · exact hpools
    · exact (List.nodup_cons.mp hpools).2
  client := fun fd events hmem => h.client fd events (List.mem_cons_of_mem _ hmem)
  result := fun writer hmem => h.result writer (List.mem_cons_of_mem _ hmem)

/-- A result that is settled touches its own descriptor only. -/
theorem Settles.touches (hs' : s.Settles id c false s') : s.Touches id c.fd s' := by
  have hset : ∀ t, (t = s.fdes ∨ t = s.fdes.set c.fd .output id) → ∀ fd, fd ≠ c.fd → t fd = s.fdes fd := by
    rintro t (rfl | rfl) fd hfd
    · rfl
    · exact s.fdes.set_of_ne .output id hfd
  cases hs' with
  | deleted => exact ⟨rfl, rfl, fun writer => by cases writer <;> rfl, fun fd hfd => s.fdes.del_of_ne hfd,
      fun i hi => Or.inl hi⟩
  | polled hc' ht hinput =>
      rename_i t
      refine ⟨rfl, rfl, fun writer => by cases writer <;> rfl, fun fd hfd => ?_, fun i hi => Or.inl hi⟩
      exact (t.set_of_ne .input id hfd).trans (hset t ht fd hfd)
  | pushed hc' ht =>
      rename_i t
      refine ⟨rfl, rfl, fun writer => by cases writer <;> rfl, fun fd hfd => ?_, fun i hi => ?_⟩
      · exact (t.clr_of_ne .input hfd).trans (hset t ht fd hfd)
      · exact (List.mem_append.mp hi).imp_right List.mem_singleton.mp

/-- An event that is served touches its own descriptor only. -/
theorem Serves.touches {readable : Bool} (hs' : s.Serves id c readable s') : s.Touches id c.fd s' := by
  have hclr : ∀ t, (t = s.fdes ∨ t = s.fdes.clr c.fd .output) → ∀ fd, fd ≠ c.fd → t fd = s.fdes fd := by
    rintro t (rfl | rfl) fd hfd
    · rfl
    · exact s.fdes.clr_of_ne .output hfd
  cases hs' with
  | writes hc' ht => exact ⟨rfl, rfl, fun writer => by cases writer <;> rfl, hclr _ ht, fun i hi => Or.inl hi⟩
  | reads hc' ht =>
      refine ⟨rfl, rfl, fun writer => by cases writer <;> rfl, hclr _ ht, fun i hi => ?_⟩
      exact (List.mem_append.mp hi).imp_right List.mem_singleton.mp

/-! ## Steps -/

/-- What is the case at each place of the loop. -/
def Stage (s : NetServer σ) : LoopPhase → Prop
  | .wait => s.readyList = []
  | .events es => s.readyList2 = [] ∧ s.Awaits es
  | .ready => True

/-- The invariant of the server. -/
structure Orderly (s : NetServer σ) : Prop where
  kept : s.Kept []
  stage : s.Stage s.phase

/-- A step of another thread leaves the place of the loop alone. -/
theorem Orderly.frame (h : s.Orderly) (hs' : s'.Kept []) (hphase : s'.phase = s.phase)
    (hready : s'.readyList = s.readyList) (hsecond : s'.readyList2 = s.readyList2) (hfdes : s'.fdes = s.fdes)
    (hpool : ∀ writer, (s.pool writer).results ≠ [] → (s'.pool writer).results ≠ []) : s'.Orderly := by
  refine ⟨hs', ?_⟩
  have hstage := h.stage
  rw [hphase]
  cases hp : s.phase with
  | wait =>
      rw [hp] at hstage
      exact hready.trans hstage
  | events es =>
      rw [hp] at hstage
      refine ⟨hsecond.trans hstage.1, hstage.2.frame (fun fd _ => ?_) (fun fd _ hlink => ?_) (fun writer hmem => ?_)⟩
      · rw [hfdes]
      · rwa [hready] at hlink
      · exact hpool writer (hstage.2.result writer hmem)
  | ready => trivial

/-- The loop can wait, and is in order then. -/
theorem Orderly.step_wait {es : List ServerEvent} (h : s.Orderly) (hes : s.Reports es) :
    ∃ s', step cfg s (.wait es) = some s' ∧ s'.Orderly ∧ Does cfg s s' := by
  cases hp : s.phase with
  | events _ => exact ⟨s, by simp [step, hp], h, .refl cfg s⟩
  | ready => exact ⟨s, by simp [step, hp], h, .refl cfg s⟩
  | wait =>
      have hstage := h.stage
      rw [hp] at hstage
      have hplaced := h.kept.placed
      rw [show s.readyList = [] from hstage] at hplaced
      have heq : step cfg s (.wait es) =
          some { s with phase := .events es, readyList := s.readyList2, readyList2 := [] } := by
        simp [step, hp]
      refine ⟨_, heq, ⟨⟨hplaced.swap, h.kept.fresh, h.kept.counted⟩, rfl, ?_⟩, .turns _ ?_⟩
      swap
      · rw [show s.readyList = [] from hstage, List.append_nil, List.nil_append]
      refine ⟨hes.fds, hes.pools, fun fd events hmem => ?_, hes.result⟩
      obtain ⟨⟨flag, hflag⟩, hsub⟩ := hes.client fd events hmem
      refine ⟨⟨flag, hflag⟩, fun hin hlink => ?_⟩
      -- the links of the second list are not subscribed for input
      exact hplaced.cleared _ hlink fd (hplaced.owner fd flag hflag) (hsub .input hin)

/-- One event keeps what the events after it wait for. -/
theorem Kept.eventStep (cfg : ServerConfig σ) {e : ServerEvent} {es : List ServerEvent} (h : s.Kept []) (hsecond : s.readyList2 = [])
    (hes : s.Awaits (e :: es)) (i : EventInput) (hclosed : ∀ a ∈ i.accepted, s.Closed a.1) :
    ∃ s', s.eventStep cfg i e = some s' ∧ Does cfg s s' ∧ s'.Kept [] ∧ s'.phase = s.phase ∧
      s'.readyList2 = [] ∧ s'.Awaits es := by
  cases e with
  | accept =>
      refine ⟨_, rfl, .accepts s i.accepted, h.acceptLink i.accepted hclosed, ?_⟩
      cases haccepted : i.accepted with
      | none => exact ⟨rfl, hsecond, hes.tail⟩
      | some a =>
          rw [NetServer.acceptLink]
          -- the new descriptor is none of those still to come: they belong to live links
          split
          · refine ⟨rfl, hsecond, hes.tail.frame (fun fd hfd => ?_) (fun _ _ hlink => hlink) ?_⟩
            · refine s.fdes.set_of_ne .input s.next ?_
              rintro rfl
              obtain ⟨c, hc, hcfd⟩ := Option.map_eq_some_iff.mp (hes.tail.owner h hfd)
              exact hclosed a haccepted _ c hc hcfd
            · exact fun writer hmem => hes.tail.result writer hmem
          · exact ⟨rfl, hsecond, hes.tail⟩
  | result writer =>
      cases hresults : (s.pool writer).results with
      | nil => exact absurd hresults (hes.result writer (by simp))
      | cons job rest =>
          have hfetch := h.fetch (Pool.held_pop hresults)
          obtain ⟨fd, hfd⟩ := Option.ne_none_iff_exists'.mp (hfetch.placed.live job.link (by simp))
          obtain ⟨c, hc, hcfd⟩ := Option.map_eq_some_iff.mp hfd
          obtain ⟨s', heq, hs'⟩ := procResult_spec hc job.result i.written false
          refine ⟨s', by rw [NetServer.eventStep, hresults]; exact heq, .settles hresults ?_ hs', hfetch.settles hc hs', ?_⟩
          · cases writer <;> exact hc
          -- each pool reports once in a turn, so its other results do not matter here
          have htouch := hs'.touches
          have hpool : ∀ w, w ≠ writer → (s.setPool writer { s.pool writer with results := rest }).pool w =
              s.pool w := by
            intro w hw
            cases writer <;> cases w <;> first | rfl | exact absurd rfl hw
          have hpools : ServerEvent.result writer ∉ es := by
            intro hmem
            have hnodup := hes.pools
            rw [List.filterMap_cons] at hnodup
            exact (List.nodup_cons.mp hnodup).1 (List.mem_filterMap.mpr ⟨_, hmem, rfl⟩)
          have hawaits : (s.setPool writer { s.pool writer with results := rest }).Awaits es := by
            refine hes.tail.frame (fun fd _ => ?_) (fun fd _ hlink => ?_) (fun w hmem => ?_)
            · cases writer <;> rfl
            · cases writer <;> exact hlink
            · rw [hpool w (by rintro rfl; exact hpools hmem)]
              exact hes.tail.result w hmem
          -- the link is away, so its descriptor is not watched, and no event is left for it
          have hquiet : ∀ flag, ¬ (s.fdes c.fd).flags flag := by
            have haway := away_setPool [job.link] [] (Pool.held_pop hresults)
            refine h.placed.quiet job.link (haway.mem_iff.mp (by simp)) c.fd ?_
            have hlive : s.fdOf job.link = (s.setPool writer { s.pool writer with results := rest }).fdOf job.link := by
              cases writer <;> rfl
            rw [hlive, hfd, ← hcfd]
            rfl
          have hnotin : c.fd ∉ es.filterMap ServerEvent.fd := by
            intro hmem
            obtain ⟨events, hev⟩ := mem_fds.mp hmem
            obtain ⟨flag, hflag⟩ := (hes.tail.client _ events hev).1
            exact hquiet flag hflag
          refine ⟨?_, ?_, hawaits.touches htouch hnotin fun fd' hfd' hlink => ?_⟩
          · rw [htouch.phase]
            cases writer <;> rfl
          · rw [htouch.second]
            cases writer <;> exact hsecond
          · have howner := hawaits.owner hfetch hfd'
            rw [hlink, fdOf_eq hc, Option.some.injEq] at howner
            exact hnotin (howner ▸ hfd')
  | client fd events =>
      have hmem : fd ∈ (ServerEvent.client fd events :: es).filterMap ServerEvent.fd := by simp [ServerEvent.fd]
      have howner := hes.owner h hmem
      obtain ⟨c, hc, hcfd⟩ := Option.map_eq_some_iff.mp howner
      obtain ⟨⟨flag, hflag⟩, hread⟩ := hes.client fd events (by simp)
      obtain ⟨s', heq, hs'⟩ := clientEvent_spec hc events i.read i.written
      -- a readable link is in no list: its descriptor would not be watched
      have hout : events .input = true →
          (s.fdes fd).link ∉ [] ++ s.readyList ++ s.readyList2 ++ s.away := by
        intro hin
        simp only [hsecond, List.nil_append, List.append_nil, List.mem_append, not_or]
        exact ⟨hread hin, fun haway => h.placed.quiet _ haway fd howner flag hflag⟩
      have hnotin : c.fd ∉ es.filterMap ServerEvent.fd := by
        have hnodup := hes.fds
        rw [List.filterMap_cons] at hnodup
        rw [hcfd]
        exact (List.nodup_cons.mp hnodup).1
      have htouch := hs'.touches
      refine ⟨s', heq, .serves hc hout hs', h.serves hc hout hs', htouch.phase, htouch.second.trans hsecond,
        hes.tail.touches htouch hnotin fun fd' hfd' hlink => ?_⟩
      have howner' := hes.tail.owner h hfd'
      rw [hlink, howner, Option.some.injEq] at howner'
      exact hnotin (hcfd ▸ howner' ▸ hfd')

/-- The loop can serve its next event. -/
theorem Orderly.step_event (h : s.Orderly) (i : EventInput) (hclosed : ∀ a ∈ i.accepted, s.Closed a.1) :
    ∃ s', step cfg s (.event i) = some s' ∧ s'.Orderly ∧ Does cfg s s' := by
  cases hp : s.phase with
  | wait => exact ⟨s, by simp [step, hp], h, .refl cfg s⟩
  | ready => exact ⟨s, by simp [step, hp], h, .refl cfg s⟩
  | events es =>
      have hstage := h.stage
      rw [hp] at hstage
      cases es with
      | nil => 
          exact ⟨{ s with phase := .ready }, by simp [step, hp],
            ⟨⟨h.kept.placed, h.kept.fresh, h.kept.counted⟩, trivial⟩, .turns _ (.refl _)⟩
      | cons e es =>
          have hkept : ({ s with phase := .events es } : NetServer σ).Kept [] :=
            ⟨h.kept.placed, h.kept.fresh, h.kept.counted⟩
          have hawaits : ({ s with phase := .events es } : NetServer σ).Awaits (e :: es) :=
            ⟨hstage.2.fds, hstage.2.pools, hstage.2.client, hstage.2.result⟩
          obtain ⟨s', heq, hdoes, hs', hphase, hsecond, hrest⟩ :=
            hkept.eventStep cfg hstage.1 hawaits i hclosed
          refine ⟨s', by simpa [step, hp] using heq, ⟨hs', ?_⟩, .event hdoes⟩
          rw [hphase]
          exact ⟨hsecond, hrest⟩

/-- Settling a result leaves the loop where it is. -/
theorem Settles.phase {second : Bool} (hs' : s.Settles id c second s') : s'.phase = s.phase := by
  cases hs' <;> cases second <;> rfl

/-- So does a reply. -/
theorem Replies.phase {kind : AnswerKind} (hs' : s.Replies cfg id c kind s') : s'.phase = s.phase := by
  cases hs'
  rfl

/-- So does handling a request. -/
theorem Handles.phase (hs' : s.Handles cfg id c s') : s'.phase = s.phase := by
  cases hs' with
  | settled hkind hs₁ hc₁ hs' => exact hs'.phase.trans hs₁.phase
  | lent writer p hallowed => cases writer <;> rfl
  | backend hallowed hs₁ => exact hs₁.phase

/-- And so does taking a link from the list. -/
theorem Takes.phase (hs' : s.Takes cfg id c s') : s'.phase = s.phase := by
  cases hs' with
  | deleted => rfl
  | waits hrecv => rfl
  | handles hrecv hreq hs' => exact hs'.phase

/-- The loop can serve the next link of its list. -/
theorem Orderly.step_ready (h : s.Orderly) (w : Conn.WriteResult) :
    ∃ s', step cfg s (.ready w) = some s' ∧ s'.Orderly ∧ Does cfg s s' := by
  cases hp : s.phase with
  | wait => exact ⟨s, by simp [step, hp], h, .refl cfg s⟩
  | events es => exact ⟨s, by simp [step, hp], h, .refl cfg s⟩
  | ready =>
      cases hready : s.readyList with
      | nil =>
          have heq : step cfg s (.ready w) = some { s with phase := .wait } := by simp [step, hp, hready]
          exact ⟨_, heq, ⟨⟨h.kept.placed, h.kept.fresh, h.kept.counted⟩, hready⟩, .turns _ (.refl _)⟩
      | cons id rest =>
          have hplaced := h.kept.placed
          rw [hready] at hplaced
          have hkept : ({ s with readyList := rest } : NetServer σ).Kept [id] :=
            ⟨hplaced.next, h.kept.fresh, h.kept.counted⟩
          obtain ⟨fd, hfd⟩ := Option.ne_none_iff_exists'.mp (hkept.placed.live id (by simp))
          obtain ⟨c, hc, -⟩ := Option.map_eq_some_iff.mp hfd
          obtain ⟨s', heq, hs'⟩ := readyLink_spec cfg (s := { s with readyList := rest }) hc w
          refine ⟨s', by simpa [step, hp, hready] using heq, ⟨hkept.takes hc hs', ?_⟩, .takes hready hc hs'⟩
          have hphase : s'.phase = .ready := hs'.phase.trans hp
          rw [hphase]
          trivial

/-- The job of a thread of a pool is about a link that exists. -/
theorem Kept.job_live {writer : Bool} {k : ℕ} {job : Job σ} (h : s.Kept hand)
    (hk : (s.pool writer).workers[k]? = some (.taken job)) : ∃ c, s.links job.link = some c := by
  have hheld : job.link ∈ (s.pool writer).held := by
    have hworker : job.link ∈ (s.pool writer).workers.flatMap Worker.links :=
      List.mem_flatMap.mpr ⟨_, List.mem_of_getElem? hk, by simp [Worker.links]⟩
    simp [Pool.held, hworker]
  have haway : job.link ∈ s.away := by
    cases writer with
    | false => exact List.mem_append_left _ (List.mem_append_left _ hheld)
    | true => exact List.mem_append_left _ (List.mem_append_right _ hheld)
  obtain ⟨fd, hfd⟩ := Option.ne_none_iff_exists'.mp (h.placed.live job.link (by simp [haway]))
  obtain ⟨c, hc, -⟩ := Option.map_eq_some_iff.mp hfd
  exact ⟨c, hc⟩

/-- The jobs of a pool change, with no result less. -/
theorem Orderly.setPool {writer : Bool} {p : Pool σ} (h : s.Orderly) (hp : p.held.Perm (s.pool writer).held)
    (hresults : (s.pool writer).results ≠ [] → p.results ≠ []) : (s.setPool writer p).Orderly := by
  have hkept := h.kept.setPool hp
  cases writer with
  | false =>
      refine h.frame hkept rfl rfl rfl rfl fun w hw => ?_
      cases w with
      | false => exact hresults hw
      | true => exact hw
  | true =>
      refine h.frame hkept rfl rfl rfl rfl fun w hw => ?_
      cases w with
      | false => exact hw
      | true => exact hresults hw

/-- A worker can take a job. -/
theorem Orderly.step_take (h : s.Orderly) (writer : Bool) (k : ℕ) :
    ∃ s', step cfg s (.take writer k) = some s' ∧ s'.Orderly ∧ Does cfg s s' := by
  rw [step]
  split
  · rename_i job rest hk hjobs
    exact ⟨_, rfl, h.setPool (Pool.held_take hk hjobs) fun hr => hr, .fetches hk hjobs⟩
  · exact ⟨s, rfl, h, .refl cfg s⟩

/-- A worker can carry out its job. -/
theorem Orderly.step_run (h : s.Orderly) (writer : Bool) (k : ℕ) (w : Conn.WriteResult) :
    ∃ s', step cfg s (.run writer k w) = some s' ∧ s'.Orderly ∧ Does cfg s s' := by
  by_cases hk : ∃ job, (s.pool writer).workers[k]? = some (.taken job)
  · obtain ⟨job, hk⟩ := hk
    obtain ⟨c, hc⟩ := h.kept.job_live hk
    obtain ⟨s', heq, hs'⟩ := step_run_spec cfg w hk hc
    refine ⟨s', heq, ?_, .carries hk hc hs'⟩
    have hkept := h.kept.carries hk hc hs'
    obtain ⟨result, hs₁, hc₁, hc₂⟩ := hs'
    obtain ⟨-⟩ := hs₁
    cases writer with
    | false =>
        refine h.frame hkept rfl rfl rfl rfl fun w hw => ?_
        cases w <;> exact hw
    | true =>
        refine h.frame hkept rfl rfl rfl rfl fun w hw => ?_
        cases w <;> exact hw
  · refine ⟨s, ?_, h, .refl cfg s⟩
    simp only [step]
    split
    · rename_i job hjob
      exact absurd ⟨job, hjob⟩ hk
    · rfl

/-- A worker can hand its result over. -/
theorem Orderly.step_finish (h : s.Orderly) (writer : Bool) (k : ℕ) :
    ∃ s', step cfg s (.finish writer k) = some s' ∧ s'.Orderly ∧ Does cfg s s' := by
  rw [step]
  split
  · rename_i job hk
    exact ⟨_, rfl, h.setPool (Pool.held_finish hk) fun _ => by simp, .finishes hk⟩
  · exact ⟨s, rfl, h, .refl cfg s⟩

/-- A backend thread can end. -/
theorem Orderly.step_closeBackend (h : s.Orderly) (id : ℕ) :
    ∃ s', step cfg s (.closeBackend id) = some s' ∧ s'.Orderly ∧ Does cfg s s' := by
  rw [step]
  split
  · rename_i hid
    cases hc : s.links id with
    | none =>
        -- a link that a thread has of its own exists
        have hlive := h.kept.placed.live id (by simp [away, hid])
        simp [fdOf, hc] at hlive
    | some c =>
        refine ⟨_, rfl, h.frame (h.kept.closeBackend hid) rfl rfl rfl rfl fun w hw => ?_, .closes hid hc⟩
        cases w <;> exact hw
  · exact ⟨s, rfl, h, .refl cfg s⟩

/-- **The step lemma.** -/
theorem Orderly.step (cfg : ServerConfig σ) (h : s.Orderly) {l : LoopStep} (hl : s.Enabled l) :
    ∃ s', step cfg s l = some s' ∧ s'.Orderly ∧ Does cfg s s' := by
  cases l with
  | wait es => exact h.step_wait hl
  | event i => exact h.step_event i hl
  | ready w => exact h.step_ready w
  | take writer k => exact h.step_take writer k
  | run writer k w => exact h.step_run writer k w
  | finish writer k => exact h.step_finish writer k
  | closeBackend id => exact h.step_closeBackend id

/-- The server starts in order. -/
theorem orderly_start (readers writers : ℕ) (data : σ) : (start readers writers data).Orderly := by
  have hheld : ∀ n, (⟨[], List.replicate n .idle, []⟩ : Pool σ).held = [] := by
    intro n
    induction n with
    | zero => rfl
    | succ n ih => simp [Pool.held, Worker.links]
  have haway : (start readers writers data).away = [] := by simp [away, start, hheld]
  refine ⟨⟨?_, fun _ _ => rfl, ∅, by simp [start], rfl⟩, rfl⟩
  rw [haway]
  exact ⟨by simp [start], by simp [start], by simp [fdOf, start], by simp [start], by simp, by simp [start],
    by simp [fdOf, start]⟩

/-! ## Every run -/

/-- Every link is in one place: in a ready list, in a pool, with a thread of its own, or none of these, and
then it is subscribed for input.  Nothing is subscribed for a link that is away, nor for a link that does
not exist. -/
structure EachInOnePlace (s : NetServer σ) : Prop where
  nodup : (s.readyList ++ s.readyList2 ++ s.away).Nodup
  live : ∀ id ∈ s.readyList ++ s.readyList2 ++ s.away, s.links id ≠ none
  polled : ∀ id c, s.links id = some c → id ∉ s.readyList ++ s.readyList2 ++ s.away →
    (s.fdes c.fd).flags .input ∧ (s.fdes c.fd).link = id
  quiet : ∀ id ∈ s.away, ∀ c, s.links id = some c → ∀ flag, ¬ (s.fdes c.fd).flags flag
  owner : ∀ fd flag, (s.fdes fd).flags flag → ∃ c, s.links (s.fdes fd).link = some c ∧ c.fd = fd
  count : s.linkCount = {id | s.links id ≠ none ∧ id ∉ s.backend}.ncard

/-- In order, each link is in one place. -/
theorem Orderly.eachInOnePlace (h : s.Orderly) : s.EachInOnePlace where
  nodup := h.kept.placed.nodup
  live := by
    intro id hid hnone
    have hlive := h.kept.placed.live id hid
    simp [fdOf, hnone] at hlive
  polled := by
    intro id c hc hout
    have hflag := h.kept.placed.polled id c.fd (fdOf_eq hc) hout
    exact ⟨hflag, h.kept.placed.link_eq (fdOf_eq hc) hflag⟩
  quiet := fun id hid c hc => h.kept.placed.quiet id hid c.fd (fdOf_eq hc)
  owner := fun fd flag hflag => Option.map_eq_some_iff.mp (h.kept.placed.owner fd flag hflag)
  count := by
    obtain ⟨opened, hopened, hcount⟩ := h.kept.counted
    have hset : {id | s.links id ≠ none ∧ id ∉ s.backend} = ↑opened := by
      ext id
      exact (hopened id).symm
    rw [hcount, hset, Set.ncard_coe_finset]

/-- **A link is never used after it was deleted, and never deleted twice**, as long as commands use no link but
their own: no run of the loop and the workers comes to a step that has no result, and after it every link is in
one place. -/
theorem loop_safe (cfg : ServerConfig σ) (readers writers : ℕ) (data : σ) (ls : List LoopStep)
    (h : Guarded (tick cfg) Possible (some (start readers writers data)) ls) :
    ∃ s, ls.foldl (tick cfg) (some (start readers writers data)) = some s ∧ s.EachInOnePlace := by
  have horderly := h.invariant (I := fun o => ∃ s : NetServer σ, o = some s ∧ s.Orderly) ?_
    ⟨_, rfl, orderly_start readers writers data⟩
  · obtain ⟨s, heq, hs⟩ := horderly
    exact ⟨s, heq, hs.eachInOnePlace⟩
  · rintro _ l ⟨s, rfl, hs⟩ hl
    obtain ⟨s', heq, hs', -⟩ := hs.step cfg (hl s rfl)
    exact ⟨s', heq, hs'⟩

/-! ### An example run -/

/-- A client whose descriptor is watched may be readable. -/
theorem possible_readable {o : Option (NetServer σ)} {fd : ℕ}
    (h : (o.map fun s => (s.fdes fd).flags .input) = some true) :
    Possible o (.wait [.client fd (fun flag => flag = .input)]) := by
  rintro s hs
  rw [Option.mem_def.mp hs, Option.map_some, Option.some.injEq] at h
  refine ⟨List.nodup_singleton fd, List.nodup_nil, ?_, by simp⟩
  rintro fd' events hmem
  obtain ⟨rfl, rfl⟩ : fd' = fd ∧ events = fun flag => decide (flag = .input) := by simpa using hmem
  exact ⟨⟨.input, h⟩, fun flag hflag => by rw [of_decide_eq_true hflag]; exact h⟩

/-- A pool with results may announce one. -/
theorem possible_result {o : Option (NetServer σ)} {writer : Bool}
    (h : (o.map fun s => (s.pool writer).results.isEmpty) = some false) :
    Possible o (.wait [.result writer]) := by
  rintro s hs
  rw [Option.mem_def.mp hs, Option.map_some, Option.some.injEq] at h
  refine ⟨List.nodup_nil, List.nodup_singleton writer, by simp, ?_⟩
  rintro writer' hmem hnil
  obtain rfl : writer' = writer := by simpa using hmem
  rw [hnil] at h
  cases h

/-- A server with a password, one command of its own, and the protocol of the server. -/
def sampleServer : ServerConfig Unit where
  needAuth := true
  password := ascii "secret"
  procMap := fun name =>
    if name = ascii "auth" then some ⟨false, false, .auth⟩
    else some ⟨true, false, .data fun _ req _ => (.ok, ascii "ok" :: req.drop 1, ())⟩
  checkPass := fun _ _ => true
  recv := Link.recv (fun _ => none) 0
  send := fun _ resp => some (Link.send resp)

/-- Nobody connects, and nothing is read or written. -/
def nothing : EventInput := ⟨none, ⟨[], false⟩, ⟨0, false⟩⟩

/-- A client connects and sends the password and a request in one piece: the one is answered by the loop, the
other by a reader. -/
def sampleRun : List LoopStep :=
  [.wait [.accept], .event { nothing with accepted := some (5, ascii "127.0.0.1") }, .event nothing, .ready ⟨0, false⟩,
    .wait [.client 5 (fun flag => flag = .input)],
    .event { nothing with read := ⟨ascii "4\nauth\n6\nsecret\n\n3\nget\n1\nk\n\n", false⟩ }, .event nothing,
    .ready ⟨100, false⟩, .ready ⟨0, false⟩,
    .wait [], .event nothing, .ready ⟨0, false⟩, .ready ⟨0, false⟩,
    .take false 0, .run false 0 ⟨100, false⟩, .finish false 0,
    .wait [.result false], .event nothing, .event nothing, .ready ⟨0, false⟩]

/-- The sample run consists of possible steps. -/
theorem sampleRun_guarded :
    Guarded (tick sampleServer) Possible (some (start 2 1 ())) sampleRun := by
  have htrue : ∀ (o : Option (NetServer Unit)), Possible o (.event nothing) := fun _ _ _ a ha => nomatch ha
  have hready : ∀ (o : Option (NetServer Unit)) w, Possible o (.ready w) := fun _ _ _ _ => trivial
  refine ⟨?_, ?_, htrue _, hready _ _, ?_, ?_, htrue _, hready _ _, hready _ _, ?_, htrue _, hready _ _, hready _ _,
    fun _ _ => trivial, fun _ _ => trivial, fun _ _ => trivial, ?_, htrue _, htrue _, hready _ _, trivial⟩
  · rintro s hs
    exact ⟨List.nodup_nil, List.nodup_nil, by simp, by simp⟩
  · rintro s hs a ha id c hc
    cases hs
    cases hc
  · exact possible_readable (by decide +kernel)
  · exact fun _ _ a ha => nomatch ha
  · rintro s hs
    exact ⟨List.nodup_nil, List.nodup_nil, by simp, by simp⟩
  · exact possible_result (by decide +kernel)

/-- After the sample run each link is in one place. -/
theorem loop_safe_sampleRun :
    ∃ s, sampleRun.foldl (tick sampleServer) (some (start 2 1 ())) = some s ∧ s.EachInOnePlace :=
  loop_safe sampleServer 2 1 () sampleRun sampleRun_guarded

end NetServer

end Ssdb
