/-
# Where the links of the server are

The comment above `proc_client_event` says when a link may be deleted: a link is in the ready list or in
the queue of an asynchronous worker, in one of them at a time.  This file states what that comes to with
the events that are subscribed, and shows what each of the moves of a link does to it.

`Placed` is about four lists of links: those that are being worked on, the two ready lists, and those that
are away (in a pool, or with a thread of their own).  No link is in them twice, and all other links are
subscribed for input.
-/
import DoudizhuBackend.Ssdb.ServerSteps

namespace Ssdb

/-! ## Places -/

/-- The links with the descriptors `fdOf` are where they belong. -/
structure Placed (hand ready second away : List ℕ) (fdOf : ℕ → Option ℕ) (t : Fdevents) : Prop where
  nodup : (hand ++ ready ++ second ++ away).Nodup
  live : ∀ id ∈ hand ++ ready ++ second ++ away, fdOf id ≠ none
  inj : ∀ i j fd, fdOf i = some fd → fdOf j = some fd → i = j
  owner : ∀ fd flag, (t fd).flags flag → fdOf (t fd).link = some fd
  quiet : ∀ id ∈ away, ∀ fd ∈ fdOf id, ∀ flag, ¬ (t fd).flags flag
  cleared : ∀ id ∈ second, ∀ fd ∈ fdOf id, ¬ (t fd).flags .input
  polled : ∀ id fd, fdOf id = some fd → id ∉ hand ++ ready ++ second ++ away → (t fd).flags .input

namespace Placed

variable {hand ready second away : List ℕ} {fdOf : ℕ → Option ℕ} {t : Fdevents} {id fd : ℕ}

/-- The order of the links that are away does not matter. -/
theorem perm {away' : List ℕ} (h : Placed hand ready second away fdOf t) (hp : away.Perm away') :
    Placed hand ready second away' fdOf t where
  nodup := ((List.Perm.append_left _ hp).nodup_iff).mp h.nodup
  live := fun id hid => h.live id (by simpa [hp.mem_iff] using hid)
  inj := h.inj
  owner := h.owner
  quiet := fun id hid => h.quiet id (hp.mem_iff.mpr hid)
  cleared := h.cleared
  polled := fun id fd hfd hid => h.polled id fd hfd (by simpa [hp.mem_iff] using hid)

/-- The subscription of a live link is its own. -/
theorem link_eq (h : Placed hand ready second away fdOf t) (hfd : fdOf id = some fd) {flag : EventFlag}
    (hflag : (t fd).flags flag) : (t fd).link = id :=
  h.inj _ _ fd (h.owner fd flag hflag) hfd

/-- `accept_link`: a new link is subscribed for input. -/
theorem accept (h : Placed hand ready second away fdOf t) (hid : fdOf id = none)
    (hfd : ∀ i, fdOf i ≠ some fd) :
    Placed hand ready second away (Function.update fdOf id (some fd)) (t.set fd .input id) := by
  -- nothing is subscribed for a descriptor that is not open
  have hflags : ∀ flag, ¬ (t fd).flags flag := fun flag hflag => hfd _ (h.owner fd flag hflag)
  have hne : ∀ i ∈ hand ++ ready ++ second ++ away, i ≠ id := by
    rintro i hi rfl
    exact h.live i hi hid
  have hold : ∀ i fd', i ≠ id → Function.update fdOf id (some fd) i = some fd' → fd' ≠ fd := by
    rintro i fd' hi hfd' rfl
    rw [Function.update_of_ne hi] at hfd'
    exact hfd i hfd'
  constructor
  case nodup => exact h.nodup
  case live =>
    intro i hi
    rw [Function.update_of_ne (hne i hi)]
    exact h.live i hi
  case inj =>
    intro i j fd' hi hj
    by_cases hii : i = id <;> by_cases hjj : j = id
    · rw [hii, hjj]
    · rw [hii, Function.update_self, Option.some.injEq] at hi
      exact absurd hi.symm (hold j fd' hjj hj)
    · rw [hjj, Function.update_self, Option.some.injEq] at hj
      exact absurd hj.symm (hold i fd' hii hi)
    · rw [Function.update_of_ne hii] at hi
      rw [Function.update_of_ne hjj] at hj
      exact h.inj i j fd' hi hj
  case owner =>
    intro fd' flag hflag
    by_cases hfd' : fd' = fd
    · have hnone : (t fd).flags = fun _ => false := by
        funext flag
        simpa using hflags flag
      rw [hfd', t.set_link_self .input id hnone, Function.update_self]
    · rw [t.set_of_ne .input id hfd'] at hflag ⊢
      have howner := h.owner fd' flag hflag
      have hlink : (t fd').link ≠ id := by
        intro hlink
        rw [hlink, hid] at howner
        cases howner
      rw [Function.update_of_ne hlink]
      exact howner
  case quiet =>
    intro i hi fd' hfd' flag
    have hi' : i ≠ id := hne i (by simp [hi])
    rw [t.set_of_ne .input id (hold i fd' hi' hfd')]
    rw [Function.update_of_ne hi'] at hfd'
    exact h.quiet i hi fd' hfd' flag
  case cleared =>
    intro i hi fd' hfd'
    have hi' : i ≠ id := hne i (by simp [hi])
    rw [t.set_of_ne .input id (hold i fd' hi' hfd')]
    rw [Function.update_of_ne hi'] at hfd'
    exact h.cleared i hi fd' hfd'
  case polled =>
    intro i fd' hi hout
    rw [t.set_flags]
    by_cases hii : i = id
    · rw [hii, Function.update_self, Option.some.injEq] at hi
      exact Or.inr ⟨hi.symm, rfl⟩
    · rw [Function.update_of_ne hii] at hi
      exact Or.inl (h.polled i fd' hi hout)

/-- `delete link`: the link that is worked on goes, and its subscription with it. -/
theorem delete (h : Placed (id :: hand) ready second away fdOf t) (hfd : fdOf id = some fd) :
    Placed hand ready second away (Function.update fdOf id none) (t.del fd) := by
  have hnotin : id ∉ hand ++ ready ++ second ++ away := (List.nodup_cons.mp h.nodup).1
  have hne : ∀ i ∈ hand ++ ready ++ second ++ away, i ≠ id := by
    rintro i hi rfl
    exact hnotin hi
  have hold : ∀ i fd', Function.update fdOf id none i = some fd' → i ≠ id ∧ fdOf i = some fd' := by
    intro i fd' hi
    by_cases hii : i = id
    · rw [hii, Function.update_self] at hi
      cases hi
    · rw [Function.update_of_ne hii] at hi
      exact ⟨hii, hi⟩
  constructor
  case nodup => exact (List.nodup_cons.mp h.nodup).2
  case live =>
    intro i hi
    rw [Function.update_of_ne (hne i hi)]
    exact h.live i (List.mem_cons_of_mem _ hi)
  case inj => exact fun i j fd' hi hj => h.inj i j fd' (hold i fd' hi).2 (hold j fd' hj).2
  case owner =>
    intro fd' flag hflag
    rw [t.del_flags] at hflag
    have howner := h.owner fd' flag hflag.1
    have hlink : (t fd').link ≠ id := by
      intro hlink
      rw [hlink, hfd, Option.some.injEq] at howner
      exact hflag.2 howner.symm
    rw [t.del_link, Function.update_of_ne hlink]
    exact howner
  case quiet =>
    intro i hi fd' hfd' flag hflag
    exact h.quiet i hi fd' (hold i fd' hfd').2 flag ((t.del_flags flag).mp hflag).1
  case cleared =>
    intro i hi fd' hfd' hflag
    exact h.cleared i hi fd' (hold i fd' hfd').2 ((t.del_flags .input).mp hflag).1
  case polled =>
    intro i fd' hi hout
    obtain ⟨hii, hi⟩ := hold i fd' hi
    rw [t.del_flags]
    refine ⟨h.polled i fd' hi ?_, ?_⟩
    · simpa [hii] using hout
    · rintro rfl
      exact hii (h.inj i id fd' hi hfd)

/-- `fdes->set` for the link that is worked on. -/
theorem set (h : Placed (id :: hand) ready second away fdOf t) (hfd : fdOf id = some fd)
    (flag : EventFlag) : Placed (id :: hand) ready second away fdOf (t.set fd flag id) := by
  have hne : ∀ i fd', i ∈ hand ++ ready ++ second ++ away → fdOf i = some fd' → fd' ≠ fd := by
    rintro i fd' hi hfd' rfl
    rw [h.inj i id fd' hfd' hfd] at hi
    exact (List.nodup_cons.mp h.nodup).1 hi
  constructor
  case nodup => exact h.nodup
  case live => exact h.live
  case inj => exact h.inj
  case owner =>
    intro fd' f hf
    rcases t.set_link flag id fd fd' with hlink | ⟨rfl, hlink⟩
    · rw [hlink]
      rw [t.set_flags] at hf
      rcases hf with hf | ⟨rfl, -⟩
      · exact h.owner fd' f hf
      · by_cases hany : ∃ f', (t fd').flags f'
        · obtain ⟨f', hf'⟩ := hany
          exact h.owner fd' f' hf'
        · have hnone : (t fd').flags = fun _ => false := by
            funext f'
            simpa using fun hf' => hany ⟨f', hf'⟩
          rw [t.set_link_self flag id hnone] at hlink
          rw [← hlink]
          exact hfd
    · rw [hlink]
      exact hfd
  case quiet =>
    intro i hi fd' hfd' f
    rw [t.set_of_ne flag id (hne i fd' (by simp [hi]) hfd')]
    exact h.quiet i hi fd' hfd' f
  case cleared =>
    intro i hi fd' hfd'
    rw [t.set_of_ne flag id (hne i fd' (by simp [hi]) hfd')]
    exact h.cleared i hi fd' hfd'
  case polled =>
    intro i fd' hi hout
    rw [t.set_flags]
    exact Or.inl (h.polled i fd' hi hout)

/-- `fdes->clr`, of output for any link, and of input for a link that is somewhere. -/
theorem clr (h : Placed hand ready second away fdOf t) (hfd : fdOf id = some fd) {flag : EventFlag}
    (hflag : flag = .input → id ∈ hand ++ ready ++ second ++ away) :
    Placed hand ready second away fdOf (t.clr fd flag) where
  nodup := h.nodup
  live := h.live
  inj := h.inj
  owner := by
    intro fd' f hf
    rw [t.clr_link]
    exact h.owner fd' f ((t.clr_flags flag f).mp hf).1
  quiet := fun i hi fd' hfd' f hf => h.quiet i hi fd' hfd' f ((t.clr_flags flag f).mp hf).1
  cleared := fun i hi fd' hfd' hf => h.cleared i hi fd' hfd' ((t.clr_flags flag .input).mp hf).1
  polled := by
    intro i fd' hi hout
    rw [t.clr_flags]
    refine ⟨h.polled i fd' hi hout, ?_⟩
    rintro ⟨rfl, hf⟩
    rw [h.inj i id fd' hi hfd] at hout
    exact hout (hflag hf.symm)

/-- The link that is worked on is subscribed for input, and left. -/
theorem poll (h : Placed (id :: hand) ready second away fdOf t) (hfd : fdOf id = some fd)
    (hflag : (t fd).flags .input) : Placed hand ready second away fdOf t where
  nodup := (List.nodup_cons.mp h.nodup).2
  live := fun i hi => h.live i (List.mem_cons_of_mem _ hi)
  inj := h.inj
  owner := h.owner
  quiet := h.quiet
  cleared := h.cleared
  polled := by
    intro i fd' hi hout
    by_cases hii : i = id
    · rw [hii, hfd, Option.some.injEq] at hi
      rw [← hi]
      exact hflag
    · exact h.polled i fd' hi (by simpa [hii] using hout)

/-- A link that is in none of the places is taken in hand. -/
theorem pick (h : Placed hand ready second away fdOf t) (hlive : fdOf id ≠ none)
    (hout : id ∉ hand ++ ready ++ second ++ away) :
    Placed (id :: hand) ready second away fdOf t where
  nodup := List.nodup_cons.mpr ⟨hout, h.nodup⟩
  live := by
    intro i hi
    rcases List.mem_cons.mp hi with rfl | hi
    · exact hlive
    · exact h.live i hi
  inj := h.inj
  owner := h.owner
  quiet := h.quiet
  cleared := h.cleared
  polled := fun i fd' hi hout' => h.polled i fd' hi fun hmem => hout' (List.mem_cons_of_mem _ hmem)

/-- The places are given by their links, whatever the order. -/
theorem congr {hand' ready' second' away' : List ℕ} (h : Placed hand ready second away fdOf t)
    (hall : (hand ++ ready ++ second ++ away).Perm (hand' ++ ready' ++ second' ++ away'))
    (hquiet : ∀ id ∈ away', ∀ fd ∈ fdOf id, ∀ flag, ¬ (t fd).flags flag)
    (hcleared : ∀ id ∈ second', ∀ fd ∈ fdOf id, ¬ (t fd).flags .input) :
    Placed hand' ready' second' away' fdOf t where
  nodup := hall.nodup_iff.mp h.nodup
  live := fun i hi => h.live i (hall.mem_iff.mpr hi)
  inj := h.inj
  owner := h.owner
  quiet := hquiet
  cleared := hcleared
  polled := fun i fd' hi hout => h.polled i fd' hi fun hmem => hout (hall.mem_iff.mp hmem)

/-- The first link of the ready list is taken in hand. -/
theorem next (h : Placed hand (id :: ready) second away fdOf t) :
    Placed (id :: hand) ready second away fdOf t := by
  refine h.congr ?_ h.quiet h.cleared
  simp only [List.append_assoc, List.cons_append]
  exact List.perm_middle

/-- The link in hand is put into the ready list. -/
theorem push (h : Placed (id :: hand) ready second away fdOf t) :
    Placed hand (ready ++ [id]) second away fdOf t := by
  refine h.congr ?_ h.quiet h.cleared
  simp only [List.append_assoc, List.cons_append, List.nil_append]
  exact List.perm_middle.symm.trans (List.Perm.append_left _ List.perm_middle.symm)

/-- The link in hand, no more subscribed for input, is put into the second ready list. -/
theorem pushSecond (h : Placed (id :: hand) ready second away fdOf t) (hfd : fdOf id = some fd)
    (hflag : ¬ (t fd).flags .input) : Placed hand ready (second ++ [id]) away fdOf t := by
  refine h.congr ?_ h.quiet ?_
  · simp only [List.append_assoc, List.cons_append, List.nil_append]
    refine List.perm_middle.symm.trans (List.Perm.append_left _ ?_)
    exact List.perm_middle.symm.trans (List.Perm.append_left _ List.perm_middle.symm)
  · intro i hi fd' hfd'
    rcases List.mem_append.mp hi with hi | hi
    · exact h.cleared i hi fd' hfd'
    · rw [List.mem_singleton.mp hi, hfd, Option.mem_some_iff] at hfd'
      rw [← hfd']
      exact hflag

/-- The link in hand goes away, and is subscribed no more. -/
theorem lend (h : Placed (id :: hand) ready second away fdOf t) (hfd : fdOf id = some fd) :
    Placed hand ready second (id :: away) fdOf (t.del fd) := by
  have hdel : Placed (id :: hand) ready second away fdOf (t.del fd) := by
    refine ⟨h.nodup, h.live, h.inj, ?_, ?_, ?_, ?_⟩
    · intro fd' flag hflag
      rw [t.del_link]
      exact h.owner fd' flag ((t.del_flags flag).mp hflag).1
    · exact fun i hi fd' hfd' flag hflag => h.quiet i hi fd' hfd' flag ((t.del_flags flag).mp hflag).1
    · exact fun i hi fd' hfd' hflag => h.cleared i hi fd' hfd' ((t.del_flags .input).mp hflag).1
    · intro i fd' hi hout
      rw [t.del_flags]
      refine ⟨h.polled i fd' hi hout, ?_⟩
      rintro rfl
      exact hout (by simp [h.inj i id fd' hi hfd])
  refine hdel.congr ?_ ?_ hdel.cleared
  · simp only [List.append_assoc, List.cons_append]
    refine List.perm_middle.symm.trans (List.Perm.append_left _ ?_)
    exact List.perm_middle.symm.trans (List.Perm.append_left _ List.perm_middle.symm)
  · intro i hi fd' hfd' flag hflag
    rcases List.mem_cons.mp hi with rfl | hi
    · rw [hfd, Option.mem_some_iff] at hfd'
      exact ((t.del_flags flag).mp hflag).2 hfd'.symm
    · exact hdel.quiet i hi fd' hfd' flag hflag

/-- A link that is away comes back. -/
theorem fetch (h : Placed hand ready second (id :: away) fdOf t) :
    Placed (id :: hand) ready second away fdOf t := by
  refine h.congr ?_ (fun i hi => h.quiet i (List.mem_cons_of_mem _ hi)) h.cleared
  simp only [List.append_assoc, List.cons_append]
  refine (List.Perm.append_left _ ?_).trans List.perm_middle
  exact (List.Perm.append_left _ List.perm_middle).trans List.perm_middle

/-- The start of a round: the second ready list becomes the first one. -/
theorem swap (h : Placed hand [] second away fdOf t) : Placed hand second [] away fdOf t := by
  refine h.congr ?_ h.quiet (fun i hi => ?_)
  · simp
  · cases hi

/-- A link that is away is deleted by the thread that has it. -/
theorem leave (h : Placed hand ready second (id :: away) fdOf t) :
    Placed hand ready second away (Function.update fdOf id none) t := by
  obtain ⟨fd, hfd⟩ := Option.ne_none_iff_exists'.mp (h.live id (by simp))
  have hdel : t.del fd = t := by
    funext fd'
    by_cases hfd' : fd' = fd
    · have hnone : (t fd).flags = fun _ => false := by
        funext flag
        simpa using h.quiet id (by simp) fd hfd flag
      rw [hfd', Fdevents.del, Function.update_self, ← hnone]
    · exact t.del_of_ne hfd'
  have hback := h.fetch.delete hfd
  rwa [hdel] at hback

end Placed

/-! ## The links that are away -/

variable {σ : Type}

/-- The value of one element is exchanged. -/
theorem perm_flatMap_set {α β : Type*} (f : α → List β) {xs : List α} {k : ℕ} {a : α} (b : α)
    (hk : xs[k]? = some a) : (f a ++ (xs.set k b).flatMap f).Perm (f b ++ xs.flatMap f) := by
  induction xs generalizing k with
  | nil => simp at hk
  | cons x xs ih =>
      cases k with
      | zero =>
          obtain rfl : x = a := by simpa using hk
          simp only [List.set_cons_zero, List.flatMap_cons]
          rw [← List.append_assoc, ← List.append_assoc]
          exact List.Perm.append_right _ List.perm_append_comm
      | succ k =>
          simp only [List.set_cons_succ, List.flatMap_cons]
          have hxs := (ih (by simpa using hk)).append_left (f x)
          calc (f a ++ (f x ++ (xs.set k b).flatMap f)).Perm (f x ++ (f a ++ (xs.set k b).flatMap f)) :=
                List.perm_append_comm_assoc ..
            _ |>.Perm (f x ++ (f b ++ xs.flatMap f)) := hxs
            _ |>.Perm (f b ++ (f x ++ xs.flatMap f)) := List.perm_append_comm_assoc ..

namespace Pool

variable {p : Pool σ} {job : Job σ} {rest : List (Job σ)} {k : ℕ}

theorem held_push : ({ p with jobs := p.jobs ++ [job] } : Pool σ).held.Perm (job.link :: p.held) := by
  simp only [held, List.map_append, List.append_assoc, List.map_cons, List.map_nil, List.cons_append,
    List.nil_append]
  exact List.perm_middle

theorem held_pop (hp : p.results = job :: rest) :
    (job.link :: ({ p with results := rest } : Pool σ).held).Perm p.held := by
  simp only [held, hp, List.map_cons]
  exact List.perm_middle.symm

theorem held_take (hk : p.workers[k]? = some .idle) (hp : p.jobs = job :: rest) :
    ({ p with jobs := rest, workers := p.workers.set k (.taken job) } : Pool σ).held.Perm p.held := by
  have hset := perm_flatMap_set Worker.links (.taken job) hk
  simp only [held, hp, List.map_cons]
  refine List.Perm.append_right _ ?_
  exact (List.Perm.append_left _ hset).trans List.perm_middle

theorem held_run (result : ProcResult) (hk : p.workers[k]? = some (.taken job)) :
    ({ p with workers := p.workers.set k (.done { job with result := result }) } : Pool σ).held.Perm p.held := by
  have hset := perm_flatMap_set Worker.links (.done { job with result := result }) hk
  simp only [held]
  refine List.Perm.append_right _ (List.Perm.append_left _ ?_)
  exact (List.perm_cons _).mp hset

theorem held_finish (hk : p.workers[k]? = some (.done job)) :
    ({ p with results := p.results ++ [job], workers := p.workers.set k .idle } : Pool σ).held.Perm p.held := by
  have hset := perm_flatMap_set Worker.links .idle hk
  simp only [held, List.map_append, List.map_cons, List.map_nil, List.append_assoc]
  refine List.Perm.append_left _ ?_
  calc ((p.workers.set k .idle).flatMap Worker.links ++ (p.results.map Job.link ++ [job.link])).Perm
        (job.link :: ((p.workers.set k .idle).flatMap Worker.links ++ p.results.map Job.link)) := by
          rw [← List.append_assoc]
          exact List.perm_append_singleton ..
    _ |>.Perm (p.workers.flatMap Worker.links ++ p.results.map Job.link) := hset.append_right _

end Pool

end Ssdb
