/-
# Requests are answered in order

Seen from one of its links, the server does nothing but the moves of `Ssdb.LinkHistory`, whatever the
environment and the threads do in between (`Follows`).  So a client gets the answers to its requests in
the order in which it sent them (`php_exchange`), and has no command carried out before it gave the
password (`password_first`).
-/
import DoudizhuBackend.Ssdb.LoopSafety
import DoudizhuBackend.Ssdb.LinkHistory

open ChunkedStream

namespace Ssdb

variable {σ : Type}

/-! ## Requests in the pools -/

/-- The link of a job that was not carried out yet. -/
def Worker.waiting : Worker σ → List ℕ
  | .taken job => [job.link]
  | _ => []

/-- The link of a job that was carried out. -/
def Worker.answered : Worker σ → List ℕ
  | .done job => [job.link]
  | _ => []

namespace Pool

/-- The links with a request that was not carried out yet. -/
def waiting (p : Pool σ) : List ℕ := p.jobs.map Job.link ++ p.workers.flatMap Worker.waiting

/-- The links with a request that was carried out. -/
def answered (p : Pool σ) : List ℕ := p.workers.flatMap Worker.answered ++ p.results.map Job.link

variable {p : Pool σ} {job : Job σ} {rest : List (Job σ)} {k : ℕ}

/-- The jobs in a pool wait or have been answered. -/
theorem held_perm (p : Pool σ) : p.held.Perm (p.waiting ++ p.answered) := by
  have hlinks : (fun w : Worker σ => w.waiting ++ w.answered) = Worker.links := by
    funext w
    cases w <;> rfl
  have hworkers := List.flatMap_append_perm p.workers Worker.waiting Worker.answered
  rw [hlinks] at hworkers
  simp only [held, waiting, answered, List.append_assoc]
  refine List.Perm.append_left _ ?_
  rw [← List.append_assoc]
  exact List.Perm.append_right _ hworkers.symm

/-- A new job waits. -/
theorem mem_waiting_push {i : ℕ} :
    i ∈ ({ p with jobs := p.jobs ++ [job] } : Pool σ).waiting ↔ i = job.link ∨ i ∈ p.waiting := by
  simp only [waiting, List.map_append, List.map_cons, List.map_nil, List.mem_append, List.mem_singleton]
  rw [or_comm (b := i = job.link), or_assoc]

/-- A job that a worker takes still waits. -/
theorem waiting_take (hk : p.workers[k]? = some .idle) (hp : p.jobs = job :: rest) :
    ({ p with jobs := rest, workers := p.workers.set k (.taken job) } : Pool σ).waiting.Perm p.waiting := by
  have hset := perm_flatMap_set Worker.waiting (.taken job) hk
  simp only [waiting, hp, List.map_cons]
  exact (List.Perm.append_left _ hset).trans List.perm_middle

/-- A job that has been run waits no more. -/
theorem waiting_run (result : ProcResult) (hk : p.workers[k]? = some (.taken job)) :
    (job.link :: ({ p with workers := p.workers.set k (.done { job with result := result }) } :
      Pool σ).waiting).Perm p.waiting := by
  have hset := perm_flatMap_set Worker.waiting (.done { job with result := result }) hk
  simp only [waiting]
  exact List.perm_middle.symm.trans (List.Perm.append_left _ hset)

/-- A result that is handed over has been answered already. -/
theorem waiting_finish (hk : p.workers[k]? = some (.done job)) :
    ({ p with results := p.results ++ [job], workers := p.workers.set k .idle } : Pool σ).waiting.Perm
      p.waiting := by
  have hset := perm_flatMap_set Worker.waiting .idle hk
  exact List.Perm.append_left _ hset

end Pool

namespace NetServer

variable {cfg : ServerConfig σ} {s s' : NetServer σ} {id : ℕ} {c : Conn} {stage : ℕ → RequestStage}
  {kind : AnswerKind}

/-- The links with a request in a pool that was not carried out yet. -/
def pending (s : NetServer σ) : List ℕ := s.reader.waiting ++ s.writer.waiting

/-- The links that are away: their request was carried out, or not, or they have a thread of their own. -/
theorem away_perm (s : NetServer σ) :
    s.away.Perm (s.pending ++ (s.reader.answered ++ s.writer.answered ++ s.backend)) := by
  simp only [away, pending]
  rw [← List.append_assoc]
  refine List.Perm.append_right _ ((s.reader.held_perm.append s.writer.held_perm).trans ?_)
  simp only [List.append_assoc]
  exact List.Perm.append_left _ (List.perm_append_comm_assoc ..)

/-- A waiting link is in no other place. -/
theorem Kept.pending_nodup {hand : List ℕ} (h : s.Kept hand) :
    (hand ++ s.readyList ++ s.readyList2 ++
      (s.pending ++ (s.reader.answered ++ s.writer.answered ++ s.backend))).Nodup :=
  (List.Perm.append_left _ s.away_perm).nodup_iff.mp h.placed.nodup

/-- A link that is somewhere else has no request that waits. -/
theorem Kept.notMem_pending {hand : List ℕ} (h : s.Kept hand)
    (hid : id ∈ hand ++ s.readyList ++ s.readyList2 ∨
      id ∈ s.reader.answered ++ s.writer.answered ++ s.backend) : id ∉ s.pending := by
  intro hmem
  have hnodup := List.nodup_append.mp h.pending_nodup
  rcases hid with hid | hid
  · exact hnodup.2.2 id hid id (List.mem_append_left _ hmem) rfl
  · exact (List.nodup_append.mp hnodup.2.1).2.2 id hmem id hid rfl

/-- The numbers of links are given one after another. -/
theorem Kept.lt_next {hand : List ℕ} (h : s.Kept hand) (hc : s.links id = some c) : id < s.next := by
  by_contra hge
  rw [h.fresh id (not_lt.mp hge)] at hc
  cases hc

/-- A waiting link is owned. -/
theorem pending_subset_owned {i : ℕ} (hi : i ∈ s.pending) : i ∈ s.owned :=
  List.mem_append_right _ (s.away_perm.mem_iff.mpr (List.mem_append_left _ hi))

/-! ## One link of the server -/

/-- Where a link stands, for the server. -/
def standing (s : NetServer σ) (id : ℕ) : Standing :=
  match s.links id with
  | some c => .live c
  | none => if id < s.next then .closed else .fresh

/-- A link, with the stage of its request. -/
def view (s : NetServer σ) (stage : ℕ → RequestStage) (id : ℕ) : LinkView :=
  ⟨s.standing id, stage id, s.answered.filter (·.link = id)⟩

/-- Between the steps the requests that were taken and not answered are in the pools, and a link that is
nowhere sleeps. -/
def stages (s : NetServer σ) (id : ℕ) : RequestStage :=
  if id ∈ s.pending then .admitted else if id ∈ s.owned then .awake else .asleep

/-- A waiting link has been admitted. -/
theorem stages_admitted (hid : id ∈ s.pending) : s.stages id = .admitted := if_pos hid

/-- A link in a list is awake. -/
theorem stages_awake (hid : id ∉ s.pending) (howned : id ∈ s.owned) : s.stages id = .awake := by
  rw [stages, if_neg hid, if_pos howned]

/-- Any other link is asleep. -/
theorem stages_asleep (howned : id ∉ s.owned) : s.stages id = .asleep := by
  rw [stages, if_neg fun hid => howned (pending_subset_owned hid), if_neg howned]

/-- The stage of a link depends on where it is. -/
theorem stages_congr {i : ℕ} (hpending : i ∈ s'.pending ↔ i ∈ s.pending) (howned : i ∈ s'.owned ↔ i ∈ s.owned) :
    s'.stages i = s.stages i := by
  rw [stages, stages, if_congr hpending rfl (if_congr howned rfl rfl)]

/-- The stages differ at one link. -/
theorem update_stages (h : ∀ i, i ≠ id → s'.stages i = s.stages i) (stage : RequestStage) :
    Function.update (Function.update s.stages id stage) id (s'.stages id) = s'.stages := by
  funext i
  by_cases hi : i = id
  · rw [hi, Function.update_self]
  · rw [Function.update_of_ne hi, Function.update_of_ne hi, h i hi]

/-- Every link comes from the one state to the other by moves. -/
def Follows (cfg : ServerConfig σ) (s : NetServer σ) (stage : ℕ → RequestStage) (s' : NetServer σ)
    (stage' : ℕ → RequestStage) : Prop :=
  ∀ i, Relation.ReflTransGen (LinkMove cfg i) (s.view stage i) (s'.view stage' i)

/-- Two steps follow one another. -/
theorem Follows.trans {s'' : NetServer σ} {stage' stage'' : ℕ → RequestStage}
    (h : Follows cfg s stage s' stage') (h' : Follows cfg s' stage' s'' stage'') :
    Follows cfg s stage s'' stage'' := fun i => (h i).trans (h' i)

/-- The view of a link that is there. -/
theorem view_live (hc : s.links id = some c) (stage : ℕ → RequestStage) :
    s.view stage id = ⟨.live c, stage id, s.answered.filter (·.link = id)⟩ := by
  rw [view, standing, hc]

/-- The view of a link depends on its own data. -/
theorem view_eq {stage' : ℕ → RequestStage} {i : ℕ} (hlinks : s'.links i = s.links i) (hnext : s'.next = s.next)
    (hanswered : s'.answered.filter (·.link = i) = s.answered.filter (·.link = i))
    (hstage : stage' i = stage i) : s'.view stage' i = s.view stage i := by
  rw [view, view, standing, standing, hlinks, hnext, hanswered, hstage]

/-- A step for the link `id` alone. -/
theorem follows_at (id : ℕ) {stage' : ℕ → RequestStage} (hlinks : ∀ i, i ≠ id → s'.links i = s.links i)
    (hnext : s'.next = s.next)
    (hanswered : ∀ i, i ≠ id → s'.answered.filter (·.link = i) = s.answered.filter (·.link = i))
    (hstage : ∀ i, i ≠ id → stage' i = stage i)
    (hmoves : Relation.ReflTransGen (LinkMove cfg id) (s.view stage id) (s'.view stage' id)) :
    Follows cfg s stage s' stage' := by
  intro i
  by_cases hi : i = id
  · rw [hi]
    exact hmoves
  · rw [view_eq (hlinks i hi) hnext (hanswered i hi) (hstage i hi)]

/-- A step that leaves the links and the answers alone, and what has to be done for the links. -/
theorem follows_same (hlinks : s'.links = s.links) (hnext : s'.next = s.next) (hanswered : s'.answered = s.answered)
    (hpending : ∀ i, i ∈ s'.pending ↔ i ∈ s.pending) (howned : ∀ i, i ∈ s'.owned ↔ i ∈ s.owned) :
    Follows cfg s s.stages s' s'.stages := by
  intro i
  rw [view_eq (congrFun hlinks i) hnext (by rw [hanswered]) (stages_congr (hpending i) (howned i))]

/-! ## The parts of a step -/

/-- Settling a result keeps the waiting links. -/
theorem Settles.pending {second : Bool} (hs' : s.Settles id c second s') : s'.pending = s.pending := by
  cases hs' <;> cases second <;> rfl

/-- And the stages of the other links. -/
theorem Settles.stages {second : Bool} (hs' : s.Settles id c second s') {i : ℕ} (hi : i ≠ id) :
    s'.stages i = s.stages i := by
  refine stages_congr (by rw [hs'.pending]) ?_
  cases hs' with
  | deleted => exact Iff.rfl
  | polled => exact Iff.rfl
  | pushed =>
      cases second with
      | false =>
          simp only [owned, pushReady, List.mem_append, List.mem_singleton, hi, or_false, if_false,
            Bool.false_eq_true]
          exact Iff.rfl
      | true =>
          simp only [owned, pushReady, List.mem_append, List.mem_singleton, hi, or_false, if_true]
          exact Iff.rfl

/-- A link that is nowhere but in hand. -/
theorem Settles.follows (cfg : ServerConfig σ) {second : Bool} (stage : ℕ → RequestStage) (hc : s.links id = some c) (hnext : id < s.next) (hout : id ∉ s.owned)
    (hstage : stage id = .awake) (hs' : s.Settles id c second s') :
    Follows cfg s stage s' (Function.update stage id (s'.stages id)) := by
  have hpending : id ∉ s'.pending := fun hid => hout (pending_subset_owned (hs'.pending ▸ hid))
  cases hs' with
  | deleted =>
      refine follows_at id (fun i hi => Function.update_of_ne hi _ _) rfl (fun _ _ => rfl)
        (fun i hi => Function.update_of_ne hi _ _) ?_
      have hclosed : (s.deleteLink id c).standing id = .closed := by simp [standing, deleteLink, hnext]
      have hasleep : (s.deleteLink id c).stages id = .asleep := stages_asleep hout
      rw [view_live hc, hstage, view, hclosed, Function.update_self, hasleep]
      exact .single .close
  | polled hc' ht hinput =>
      rename_i c' t
      refine follows_at id (fun i hi => Function.update_of_ne hi _ _) rfl (fun _ _ => rfl)
        (fun i hi => Function.update_of_ne hi _ _) ?_
      have hasleep : NetServer.stages { s.setLink id c' with fdes := t.set c.fd .input id } id = .asleep :=
        stages_asleep hout
      rw [view_live hc, view_live (Function.update_self ..), hstage, Function.update_self, hasleep]
      exact .tail (.single (.flush hc')) (.rest hinput)
  | pushed hc' ht =>
      rename_i c' t
      have hawake : NetServer.stages (({ s.setLink id c' with fdes := t.clr c.fd .input } :
          NetServer σ).pushReady second id) id = .awake := by
        refine stages_awake hpending ?_
        cases second <;> simp [owned, pushReady]
      have hpush : ∀ (s' : NetServer σ) stage i, (s'.pushReady second id).view stage i = s'.view stage i := by
        intro s' stage i
        cases second <;> rfl
      have hset : Follows cfg s stage { s.setLink id c' with fdes := t.clr c.fd .input } stage := by
        refine follows_at id (fun i hi => Function.update_of_ne hi _ _) rfl (fun _ _ => rfl) (fun _ _ => rfl) ?_
        rw [view_live hc, view_live (Function.update_self ..)]
        exact .single (.flush hc')
      rw [hawake, ← hstage, Function.update_eq_self]
      intro i
      rw [hpush]
      exact hset i

/-- A reply keeps the waiting links. -/
theorem Replies.pending (hs' : s.Replies cfg id c kind s') : s'.pending = s.pending := by
  cases hs'
  rfl

/-- And the owned ones. -/
theorem Replies.owned (hs' : s.Replies cfg id c kind s') : s'.owned = s.owned := by
  cases hs'
  rfl

/-- A reply is a move of its link. -/
theorem Replies.follows (stage : ℕ → RequestStage) (hc : s.links id = some c) (hstage : stage id = .asked ∨ stage id = .admitted)
    (hkind : kind = .ran → stage id = .admitted) (hs' : s.Replies cfg id c kind s') :
    Follows cfg s stage s' (Function.update stage id .awake) := by
  obtain ⟨hfd, hinput, hread, hrecv, hsent, hkeep, hauth⟩ := hs'
  refine follows_at id (fun i hi => Function.update_of_ne hi _ _) rfl (fun i hi => ?_)
    (fun i hi => Function.update_of_ne hi _ _) ?_
  · simp [List.filter_append, Ne.symm hi]
  · rw [view_live hc, view_live (Function.update_self ..), Function.update_self]
    dsimp only
    rw [List.filter_append, List.filter_cons_of_pos (by simp), List.filter_nil]
    exact .single (.reply hstage hkind hinput hread hsent hauth)

/-- A link waits in one of the pools. -/
theorem mem_pending (writer : Bool) {i : ℕ} :
    i ∈ s.pending ↔ i ∈ (s.pool writer).waiting ∨ i ∈ (s.pool !writer).waiting := by
  cases writer
  · simp [NetServer.pending, pool]
  · simp [NetServer.pending, pool, or_comm]

/-- Waiting after a change of a pool. -/
theorem mem_pending_setPool {writer : Bool} {p : Pool σ} {i : ℕ} :
    i ∈ (s.setPool writer p).pending ↔ i ∈ p.waiting ∨ i ∈ (s.pool !writer).waiting := by
  rw [mem_pending writer]
  cases writer <;> rfl

/-- Owned after a change of a pool. -/
theorem mem_owned_setPool {writer : Bool} {p : Pool σ} (xs ys : List ℕ)
    (hp : (xs ++ p.held).Perm (ys ++ (s.pool writer).held)) {i : ℕ} (hxs : i ∉ xs) (hys : i ∉ ys) :
    i ∈ (s.setPool writer p).owned ↔ i ∈ s.owned := by
  have haway := (away_setPool xs ys hp).mem_iff (a := i)
  simp only [List.mem_append, hxs, hys, false_or] at haway
  have hlists : (s.setPool writer p).readyList = s.readyList ∧
      (s.setPool writer p).readyList2 = s.readyList2 := by cases writer <;> exact ⟨rfl, rfl⟩
  simp only [NetServer.owned, List.mem_append, haway, hlists.1, hlists.2]

/-- What becomes of the other links when the request of the link `id` was handled. -/
theorem Handles.stages (hs' : s.Handles cfg id c s') {i : ℕ} (hi : i ≠ id) : s'.stages i = s.stages i := by
  cases hs' with
  | settled hkind hs₁ hc₁ hs' =>
      rw [hs'.stages hi]
      exact stages_congr (by rw [hs₁.pending]) (by rw [hs₁.owned])
  | lent writer p hallowed =>
      refine stages_congr (mem_pending_setPool.trans ?_) ?_
      · rw [Pool.mem_waiting_push, or_assoc, ← mem_pending, or_iff_right hi]
      · have hpush : ({ s.pool writer with jobs := (s.pool writer).jobs ++ [⟨id, p, .ok⟩] } : Pool σ).held.Perm
            (id :: (s.pool writer).held) := Pool.held_push
        exact mem_owned_setPool [] [id] hpush (by simp) (by simpa using hi)
  | backend hallowed hs₁ =>
      rename_i s₁
      refine stages_congr (Iff.of_eq (congrArg _ hs₁.pending)) ?_
      rw [← hs₁.owned]
      simp [owned, away, hi]

/-- The request in hand is answered, or goes to a pool. -/
theorem Handles.follows (stage : ℕ → RequestStage) (hc : s.links id = some c) (hnext : id < s.next) (hout : id ∉ s.owned)
    (hstage : stage id = .asked) (hs' : s.Handles cfg id c s') :
    Follows cfg s stage s' (Function.update stage id (s'.stages id)) := by
  have hallow : ∀ hallowed : Allowed cfg c.auth c.recvData,
      Follows cfg s stage s (Function.update stage id .admitted) := by
    intro hallowed
    refine follows_at id (fun _ _ => rfl) rfl (fun _ _ => rfl) (fun i hi => Function.update_of_ne hi _ _) ?_
    rw [view_live hc, view_live hc, Function.update_self, hstage]
    exact .single (.allow hallowed)
  have hran : ∀ {s₁ : NetServer σ}, Allowed cfg c.auth c.recvData → s.Replies cfg id c .ran s₁ →
      Follows cfg s stage s₁ (Function.update stage id .awake) := by
    intro s₁ hallowed hs₁
    have hrest := hs₁.follows (Function.update stage id .admitted) hc
      (Or.inr (Function.update_self ..)) fun _ => Function.update_self ..
    rw [Function.update_idem] at hrest
    exact (hallow hallowed).trans hrest
  cases hs' with
  | settled hkind hs₁ hc₁ hs' =>
      rename_i kind s₁ c₁
      -- refused, unknown, or carried out by the loop itself: answered at once
      have hnext₁ : id < s₁.next := by
        obtain ⟨-⟩ := hs₁
        exact hnext
      have hreply : Follows cfg s stage s₁ (Function.update stage id .awake) := by
        by_cases hk : kind = .ran
        · subst hk
          exact hran (hkind rfl) hs₁
        · exact hs₁.follows stage hc (Or.inl hstage) fun h => absurd h hk
      have hsettle := hs'.follows cfg (Function.update stage id .awake) hc₁ hnext₁ (by rwa [hs₁.owned])
        (Function.update_self ..)
      rw [Function.update_idem] at hsettle
      exact hreply.trans hsettle
  | lent writer p hallowed =>
      -- it was let in, and a worker will answer it
      have hadmitted : NetServer.stages { s.setPool writer
          { s.pool writer with jobs := (s.pool writer).jobs ++ [⟨id, p, .ok⟩] } with
            fdes := s.fdes.del c.fd } id = .admitted :=
        stages_admitted (mem_pending_setPool.mpr (Or.inl (Pool.mem_waiting_push.mpr (Or.inl rfl))))
      rw [hadmitted]
      intro i
      have hsame : NetServer.view { s.setPool writer
          { s.pool writer with jobs := (s.pool writer).jobs ++ [⟨id, p, .ok⟩] } with
            fdes := s.fdes.del c.fd } (Function.update stage id .admitted) i =
          s.view (Function.update stage id .admitted) i := by
        cases writer <;> rfl
      rw [hsame]
      exact hallow hallowed i
  | backend hallowed hs₁ =>
      rename_i s₁
      have hpending : id ∉ s₁.pending := by
        rw [hs₁.pending]
        exact fun hid => hout (pending_subset_owned hid)
      have hawake : NetServer.stages { s₁ with
          fdes := s₁.fdes.del c.fd, linkCount := s₁.linkCount - 1, backend := id :: s₁.backend } id = .awake :=
        stages_awake hpending (by simp [owned, away])
      rw [hawake]
      exact fun i => hran hallowed hs₁ i

/-- Taking a link keeps the stages of the others. -/
theorem Takes.stages (hs' : s.Takes cfg id c s') {i : ℕ} (hi : i ≠ id) : s'.stages i = s.stages i := by
  cases hs' with
  | deleted => rfl
  | waits hrecv => rfl
  | handles hrecv hreq hs' => exact hs'.stages hi

/-- Taking a link is some moves of it. -/
theorem Takes.follows (stage : ℕ → RequestStage) (hc : s.links id = some c) (hnext : id < s.next) (hout : id ∉ s.owned)
    (hstage : stage id = .awake) (hs' : s.Takes cfg id c s') :
    Follows cfg s stage s' (Function.update stage id (s'.stages id)) := by
  cases hs' with
  | deleted => exact (Settles.deleted : s.Settles id c false _).follows cfg stage hc hnext hout hstage
  | waits hrecv =>
      rename_i input
      refine follows_at id (fun i hi => Function.update_of_ne hi _ _) rfl (fun _ _ => rfl)
        (fun i hi => Function.update_of_ne hi _ _) ?_
      have hasleep : NetServer.stages { s.setLink id { c with input := input, recvData := [] } with
          fdes := s.fdes.set c.fd .input id } id = .asleep := stages_asleep hout
      rw [view_live hc, view_live (Function.update_self ..), hstage, Function.update_self, hasleep]
      exact .single (.wait hrecv)
  | handles hrecv hreq hs' =>
      rename_i input req
      have hask : Follows cfg s stage (s.setLink id { c with input := input, recvData := req })
          (Function.update stage id .asked) := by
        refine follows_at id (fun i hi => Function.update_of_ne hi _ _) rfl (fun _ _ => rfl)
          (fun i hi => Function.update_of_ne hi _ _) ?_
        rw [view_live hc, view_live (Function.update_self ..), Function.update_self, hstage]
        exact .single (.ask hrecv hreq)
      have hasked : (s.setLink id { c with input := input, recvData := req }).links id =
          some { c with input := input, recvData := req } := Function.update_self ..
      have hrest := hs'.follows (Function.update stage id .asked) hasked hnext hout (Function.update_self ..)
      rw [Function.update_idem] at hrest
      exact hask.trans hrest

/-- Serving an event is some moves of its link. -/
theorem Serves.follows {readable : Bool} (hc : s.links id = some c)
    (hout : readable = true → id ∉ s.owned) (hs' : s.Serves id c readable s') :
    Follows cfg s s.stages s' s'.stages := by
  cases hs' with
  | writes hc' ht =>
      refine follows_at id (fun i hi => Function.update_of_ne hi _ _) rfl (fun _ _ => rfl) (fun _ _ => rfl) ?_
      rw [view_live hc, view_live (Function.update_self ..)]
      exact .single (.flush hc')
  | reads hc' ht =>
      rename_i c' bytes t
      refine follows_at id (fun i hi => Function.update_of_ne hi _ _) rfl (fun _ _ => rfl)
        (fun i hi => stages_congr Iff.rfl ?_) ?_
      · simp [owned, away, pushReady, NetServer.setLink, hi]
      -- only a link that is in no list and no pool is read
      · have hasleep : s.stages id = .asleep := stages_asleep (hout rfl)
        have hawake : NetServer.stages { (s.pushReady false id).setLink id c' with fdes := t } id = .awake := by
          refine stages_awake (fun hid => hout rfl (pending_subset_owned hid)) ?_
          simp [owned, pushReady, NetServer.setLink]
        rw [view_live hc, view_live (Function.update_self ..), hasleep, hawake]
        exact .single (.receive hc')

/-- Carrying out a job is some moves of its link. -/
theorem Kept.carries_follows {writer : Bool} {k : ℕ} {job : Job σ} (h : s.Kept [])
    (hk : (s.pool writer).workers[k]? = some (.taken job)) (hc : s.links job.link = some c)
    (hs' : s.Carries cfg writer k job c s') : Follows cfg s s.stages s' s'.stages := by
  obtain ⟨result, hs₁, hc₁, hc₂⟩ := hs'
  rename_i s₁ c₁ c₂
  have hwaiting := Pool.waiting_run result hk
  have hheld := Pool.held_run result hk
  -- the request waits until it is carried out, and only once
  have hmem : job.link ∈ s.pending := (mem_pending writer).mpr (Or.inl (hwaiting.mem_iff.mp (by simp)))
  have honce : job.link ∉ ({ s.pool writer with
      workers := (s.pool writer).workers.set k (.done { job with result := result }) } : Pool σ).waiting ++
      (s.pool !writer).waiting := by
    have hnodup : s.pending.Nodup := (List.nodup_append.mp (List.nodup_append.mp h.pending_nodup).2.1).1
    have hperm : ((s.pool writer).waiting ++ (s.pool !writer).waiting).Perm s.pending := by
      cases writer with
      | false => exact .refl _
      | true => exact List.perm_append_comm
    have hall := ((List.Perm.append_right _ hwaiting).trans hperm).nodup_iff.mpr hnodup
    rw [List.cons_append] at hall
    exact (List.nodup_cons.mp hall).1
  have hsame : ∀ w, (s₁.setLink job.link c₂).pool w = s.pool w := by
    intro w
    rw [← hs₁.pool]
    cases w <;> rfl
  have howned : ∀ i, i ∈ ((s₁.setLink job.link c₂).setPool writer { s.pool writer with
      workers := (s.pool writer).workers.set k (.done { job with result := result }) }).owned ↔ i ∈ s.owned := by
    intro i
    rw [mem_owned_setPool [] [] (by rw [hsame]; exact hheld) (by simp) (by simp)]
    exact Iff.of_eq (congrArg _ hs₁.owned)
  have hpending : ∀ i, i ∈ ((s₁.setLink job.link c₂).setPool writer { s.pool writer with
      workers := (s.pool writer).workers.set k (.done { job with result := result }) }).pending ↔
      i ≠ job.link ∧ i ∈ s.pending := by
    intro i
    rw [List.mem_append, not_or] at honce
    rw [mem_pending_setPool, hsame, mem_pending writer, ← hwaiting.mem_iff, List.mem_cons]
    constructor
    · rintro (hi | hi)
      · exact ⟨fun heq => honce.1 (heq ▸ hi), Or.inl (Or.inr hi)⟩
      · exact ⟨fun heq => honce.2 (heq ▸ hi), Or.inr hi⟩
    · rintro ⟨hne, (hi | hi) | hi⟩
      · exact absurd hi hne
      · exact Or.inl hi
      · exact Or.inr hi
  have hstages : NetServer.stages ((s₁.setLink job.link c₂).setPool writer { s.pool writer with
      workers := (s.pool writer).workers.set k (.done { job with result := result }) }) =
      Function.update s.stages job.link .awake := by
    funext i
    by_cases hi : i = job.link
    · rw [hi, Function.update_self]
      exact stages_awake (by simp [hpending]) ((howned _).mpr (pending_subset_owned hmem))
    · rw [Function.update_of_ne hi]
      exact stages_congr ((hpending i).trans (and_iff_right hi)) (howned i)
  rw [hstages]
  have hadmitted : s.stages job.link = .admitted := stages_admitted hmem
  refine (hs₁.follows s.stages hc (Or.inr hadmitted) fun _ => hadmitted).trans ?_
  have hpool : ∀ p : Pool σ, ∀ i, ((s₁.setLink job.link c₂).setPool writer p).view
      (Function.update s.stages job.link .awake) i =
      (s₁.setLink job.link c₂).view (Function.update s.stages job.link .awake) i := by
    intro p i
    cases writer <;> rfl
  have hwrite : Follows cfg s₁ (Function.update s.stages job.link .awake) (s₁.setLink job.link c₂)
      (Function.update s.stages job.link .awake) := by
    refine follows_at job.link (fun i hi => Function.update_of_ne hi _ _) rfl (fun _ _ => rfl) (fun _ _ => rfl) ?_
    rw [view_live hc₁, view_live (Function.update_self ..)]
    exact .single (.flush hc₂)
  intro i
  rw [hpool]
  exact hwrite i

/-- A link that does not exist is nowhere. -/
theorem Kept.notMem_owned (h : s.Kept []) (hid : s.links id = none) : id ∉ s.owned :=
  fun hmem => h.placed.live id hmem (by simp [fdOf, hid])

/-- A new connection is a new view. -/
theorem Kept.accept_follows (h : s.Kept []) (accepted : Option (ℕ × Bytes)) :
    Follows cfg s s.stages (s.acceptLink cfg accepted) (s.acceptLink cfg accepted).stages := by
  have hself : Follows cfg s s.stages s s.stages := fun _ => .refl
  cases accepted with
  | none => exact hself
  | some a =>
      obtain ⟨fd, ip⟩ := a
      rw [NetServer.acceptLink]
      split
      · intro i
        by_cases hi : i = s.next
        · subst hi
          have hnone : s.links s.next = none := h.fresh s.next le_rfl
          have hasleep : s.stages s.next = .asleep := stages_asleep (h.notMem_owned hnone)
          have hfresh : s.view s.stages s.next = ⟨.fresh, .asleep, s.answered.filter (·.link = s.next)⟩ := by
            simp [view, standing, hnone, hasleep]
          have hasleep' : NetServer.stages { s with
              links := Function.update s.links s.next (some (.new fd))
              next := s.next + 1
              linkCount := s.linkCount + 1
              fdes := s.fdes.set fd .input s.next } s.next = .asleep := hasleep
          rw [hfresh, view_live (Function.update_self ..), hasleep']
          exact .single (.accept fd)
        · have hsame : NetServer.view { s with
              links := Function.update s.links s.next (some (.new fd))
              next := s.next + 1
              linkCount := s.linkCount + 1
              fdes := s.fdes.set fd .input s.next } s.stages i = s.view s.stages i := by
            have hlt : i < s.next + 1 ↔ i < s.next := by omega
            simp only [view, standing, Function.update_of_ne hi, hlt]
          change Relation.ReflTransGen _ _ (NetServer.view _ s.stages i)
          rw [hsame]
      · exact hself

/-! ## Steps -/

/-- A link that is taken from its place has its stage while it is in hand. -/
theorem stages_eq_update (hpending : id ∉ s.pending) (howned : id ∈ s.owned)
    (hs' : ∀ i, i ≠ id → s'.stages i = s.stages i) : s.stages = Function.update s'.stages id .awake := by
  funext i
  by_cases hi : i = id
  · rw [hi, Function.update_self, stages_awake hpending howned]
  · rw [Function.update_of_ne hi, hs' i hi]

/-- **The step lemma**: a step makes moves of each link. -/
theorem Does.follows (h : s.Kept []) (hs' : Does cfg s s') : Follows cfg s s.stages s' s'.stages := by
  induction hs' with
  | turns phase hlists =>
      -- the loop changes its lists, and no link
      refine follows_same rfl rfl rfl (fun _ => Iff.rfl) fun i => ?_
      have hmem := hlists.mem_iff (a := i)
      simp only [List.mem_append] at hmem
      simp only [owned, List.mem_append, hmem]
      exact Iff.rfl
  | event _ ih =>
      rename_i s s' phase _
      have hphase : Follows cfg s s.stages { s with phase := phase } (NetServer.stages { s with phase := phase }) :=
        follows_same rfl rfl rfl (fun _ => Iff.rfl) fun _ => Iff.rfl
      exact hphase.trans (ih ⟨h.placed, h.fresh, h.counted⟩)
  | accepts s accepted => exact h.accept_follows accepted
  | settles hresults hc hs' =>
      rename_i s s' writer job rest c
      -- a link whose answer is handed over waits no more
      have hmem : job.link ∈ s.reader.answered ++ s.writer.answered ++ s.backend := by
        have hanswered : job.link ∈ (s.pool writer).answered := by simp [Pool.answered, hresults]
        cases writer with
        | false => exact List.mem_append_left _ (List.mem_append_left _ hanswered)
        | true => exact List.mem_append_left _ (List.mem_append_right _ hanswered)
      have hpending := h.notMem_pending (Or.inr hmem)
      have howned : job.link ∈ s.owned :=
        List.mem_append_right _ (s.away_perm.mem_iff.mpr (List.mem_append_right _ hmem))
      have hpop := Pool.held_pop hresults
      have hfetch := h.fetch hpop
      have hout : job.link ∉ (s.setPool writer { s.pool writer with results := rest }).owned :=
        (List.nodup_cons.mp hfetch.placed.nodup).1
      have hothers : ∀ i, i ≠ job.link →
          (s.setPool writer { s.pool writer with results := rest }).stages i = s.stages i := by
        intro i hi
        refine stages_congr ?_ (mem_owned_setPool [job.link] [] hpop (by simpa using hi) (by simp))
        cases writer <;> exact Iff.rfl
      have hset : (s.setPool writer { s.pool writer with results := rest }).links job.link = some c := by
        cases writer <;> exact hc
      have hnext : job.link < (s.setPool writer { s.pool writer with results := rest }).next := by
        cases writer <;> exact h.lt_next hc
      -- the link is awake while the loop has it in hand
      have hsettle := hs'.follows cfg
        (Function.update (s.setPool writer { s.pool writer with results := rest }).stages job.link .awake) hset hnext
        hout (Function.update_self ..)
      rw [update_stages (fun i hi => hs'.stages hi), ← stages_eq_update hpending howned hothers] at hsettle
      intro i
      have hview : (s.setPool writer { s.pool writer with results := rest }).view s.stages i =
          s.view s.stages i := by
        cases writer <;> rfl
      rw [← hview]
      exact hsettle i
  | serves hc hout hs' => exact hs'.follows hc hout
  | takes hready hc hs' =>
      rename_i s s' id rest c
      -- a link of the list does not wait, and leaves the list
      have hpending : id ∉ s.pending := h.notMem_pending (Or.inl (by simp [hready]))
      have howned : id ∈ s.owned := by simp [owned, hready]
      have hplaced := h.placed
      rw [hready] at hplaced
      have hout : id ∉ NetServer.owned { s with readyList := rest } :=
        (List.nodup_cons.mp hplaced.next.nodup).1
      have hothers : ∀ i, i ≠ id → NetServer.stages { s with readyList := rest } i = s.stages i := by
        intro i hi
        refine stages_congr Iff.rfl ?_
        simp [owned, away, hready, hi]
      have hc' : NetServer.links { s with readyList := rest } id = some c := hc
      have htake := hs'.follows (Function.update (NetServer.stages { s with readyList := rest }) id .awake) hc'
        (h.lt_next hc) hout (Function.update_self ..)
      rw [update_stages (fun i hi => hs'.stages hi), ← stages_eq_update hpending howned hothers] at htake
      exact fun i => htake i
  | fetches hk hjobs =>
      -- a job that is taken still waits: nothing changes for the links
      rename_i s writer k job rest
      refine follows_same (by cases writer <;> rfl) (by cases writer <;> rfl) (by cases writer <;> rfl)
        (fun i => ?_) fun i => ?_
      · rw [mem_pending_setPool, (Pool.waiting_take hk hjobs).mem_iff, ← mem_pending]
      · exact mem_owned_setPool [] [] (Pool.held_take hk hjobs) (by simp) (by simp)
  | carries hk hc hs' => exact h.carries_follows hk hc hs'
  | finishes hk =>
      rename_i s writer k job
      refine follows_same (by cases writer <;> rfl) (by cases writer <;> rfl) (by cases writer <;> rfl)
        (fun i => ?_) fun i => ?_
      · rw [mem_pending_setPool, (Pool.waiting_finish hk).mem_iff, ← mem_pending]
      · exact mem_owned_setPool [] [] (Pool.held_finish hk) (by simp) (by simp)
  | closes hid hc =>
      rename_i s id c
      -- a backend thread gives its link up
      have hpending : id ∉ s.pending := h.notMem_pending (Or.inr (List.mem_append_right _ hid))
      have hawake : s.stages id = .awake := stages_awake hpending (by simp [owned, away, hid])
      have hasleep : NetServer.stages { s with
          backend := s.backend.erase id, links := Function.update s.links id none } id = .asleep :=
        stages_asleep ((h.closeBackend hid).notMem_owned (Function.update_self ..))
      refine follows_at id (fun i hi => Function.update_of_ne hi _ _) rfl (fun _ _ => rfl)
        (fun i hi => stages_congr Iff.rfl ?_) ?_
      · simp [owned, away, List.mem_erase_of_ne hi]
      · have hclosed : NetServer.standing { s with
            backend := s.backend.erase id, links := Function.update s.links id none } id = .closed := by
          simp [standing, h.lt_next hc]
        rw [view_live hc, hawake, view, hclosed, hasleep]
        exact .single .close

/-! ## Runs -/

/-- **The run lemma**: after every run, each link has a history of moves. -/
theorem run_reached (cfg : ServerConfig σ) (readers writers : ℕ) (data : σ) (ls : List LoopStep)
    (h : Guarded (tick cfg) Possible (some (start readers writers data)) ls) :
    ∃ s, ls.foldl (tick cfg) (some (start readers writers data)) = some s ∧ s.Kept [] ∧
      ∀ id, LinkView.Reached cfg id (s.view s.stages id) := by
  have hrun := h.invariant
    (I := fun o => ∃ s : NetServer σ, o = some s ∧ s.Orderly ∧ ∀ id, LinkView.Reached cfg id (s.view s.stages id)) ?_
    ⟨_, rfl, orderly_start readers writers data, fun id => ?_⟩
  · obtain ⟨s, heq, horderly, hs⟩ := hrun
    exact ⟨s, heq, horderly.kept, hs⟩
  · rintro _ l ⟨s, rfl, hs, hreached⟩ hl
    obtain ⟨s', heq, hs', hdoes⟩ := hs.step cfg (hl s rfl)
    exact ⟨s', heq, hs', fun id => (hreached id).trans (hdoes.follows hs.kept id)⟩
  · have hasleep : (start readers writers data).stages id = .asleep :=
      stages_asleep ((orderly_start readers writers data).kept.notMem_owned rfl)
    have hview : (start readers writers data).view (start readers writers data).stages id = LinkView.initial := by
      rw [view, hasleep]
      rfl
    rw [hview]
    exact .refl

/-- The answers to the requests of a link. -/
def answersOn (s : NetServer σ) (id : ℕ) : List Answered := s.answered.filter (·.link = id)

/-- **Every client gets its answers, in order.**  All links speak the protocol of the server, and one of them,
which no thread of a backend command has (the bytes that such a thread writes are not in the model), gets the
bytes of packets that a PHP client sends, none empty and each below `Link.maxPacketSize`, as far as they were
read.  Then `Link.recv` finds nothing wrong in its input; the requests that were answered, with at most one that
waits in a pool, are the first of the packets; when all bytes were read and the link is in no list, pool or
thread, all of them were answered.  What was written are the answers in this order, and if these are none empty
and each below that size too, the client reads them from it, whatever the pieces are in which they come. -/
theorem php_exchange (cfg : ServerConfig σ) (redis : Bytes → Option (Bytes × Packet)) (slot : Byte)
    (hrecv : cfg.recv = Link.recv redis slot) (hsend : ∀ req resp, cfg.send req resp = some (Link.send resp))
    (readers writers : ℕ) (data : σ) (ls : List LoopStep)
    (h : Guarded (tick cfg) Possible (some (start readers writers data)) ls) :
    ∃ s, ls.foldl (tick cfg) (some (start readers writers data)) = some s ∧
      ∀ id c, s.links id = some c → id ∉ s.backend → ∀ (packets : List Packet) (rest : Bytes),
        (∀ p ∈ packets, Sendable p) → c.read ++ rest = packets.flatMap PhpClient.send →
        cfg.recv c.input ≠ none ∧
        (∃ waiting left, packets = (s.answersOn id).map Answered.req ++ waiting ++ left ∧
          waiting = (if id ∈ s.pending then [c.recvData] else [])) ∧
        (rest = [] → id ∉ s.owned → packets = (s.answersOn id).map Answered.req) ∧
        c.written ++ c.output = (s.answersOn id).flatMap (fun a => Link.send a.resp) ∧
        (c.output = [] → (∀ a ∈ s.answersOn id, Sendable a.resp) → ∀ chunks : List Bytes,
          chunks.flatten = c.written → (∀ chunk ∈ chunks, chunk ≠ []) →
          ∃ st, PhpClient.recvMany (s.answersOn id).length PhpClient.init chunks =
            some ((s.answersOn id).map Answered.resp, st, []) ∧ st.recvBuf = [] ∧ st.resp = []) := by
  obtain ⟨s, heq, hkept, hreached⟩ := run_reached cfg readers writers data ls h
  refine ⟨s, heq, fun id c hc _ packets rest hpackets hread => ?_⟩
  have hanswers := (hreached id).answers
  rw [view_live hc] at hanswers
  have hreader : cfg.reader = Link.reader redis slot := by
    rw [ServerConfig.reader, hrecv]
    rfl
  have hdecodes := (Link.lossless redis slot).decodes
  rw [← hreader] at hdecodes
  -- the bytes on the wire as blocks of requests
  have hitems : ∀ p ∈ packets.map fun p => (p, encode p), Sendable p.1 ∧ p.2 = encode p.1 := by
    intro p hp
    obtain ⟨q, hq, rfl⟩ := List.mem_map.mp hp
    exact ⟨hpackets q hq, rfl⟩
  have hfst : (packets.map fun p => (p, encode p)).map Prod.fst = packets := by
    rw [List.map_map]
    exact List.map_id packets
  have hstream : c.read ++ rest = (packets.map fun p => (p, encode p)).flatMap Prod.snd ++ [] := by
    rw [hread, List.flatMap_map, List.append_nil]
    exact List.flatMap_congr fun p hp => PhpClient.send_eq (hpackets p hp).1
  -- a link that waits has one request taken and not yet answered
  have hpending : (s.stages id).pending c = if id ∈ s.pending then [c.recvData] else [] := by
    by_cases hid : id ∈ s.pending
    · rw [stages_admitted hid, if_pos hid]
      rfl
    · rw [if_neg hid, NetServer.stages, if_neg hid]
      split <;> rfl
  have hsent : c.written ++ c.output = (s.answersOn id).flatMap fun a => Link.send a.resp := by
    refine (hanswers.sent c rfl).trans (List.flatMap_congr fun a _ => ?_)
    rw [ServerConfig.bytesOf, hsend]
    rfl
  obtain ⟨hwhole, left, htaken⟩ := hanswers.taken hdecodes rfl hitems rfl hstream
  rw [hfst, hpending] at htaken
  refine ⟨hwhole, ⟨_, left, htaken, rfl⟩, ?_, hsent, ?_⟩
  · rintro rfl hout
    rw [List.append_nil] at hstream
    rw [← hanswers.all hdecodes rfl hitems rfl (stages_asleep hout) hstream] at hfst
    exact hfst.symm
  · intro houtput hresp chunks hflat hne
    -- the client reads its answers back whatever the chunks
    have hall : ∀ p ∈ (s.answersOn id).map Answered.resp, Sendable p := by
      intro p hp
      obtain ⟨a, ha, rfl⟩ := List.mem_map.mp hp
      exact hresp a ha
    have hwire := (wire_lossless redis slot _ hall chunks).2 ?_ hne
    · rwa [List.length_map] at hwire
    · rw [hflat, List.flatMap_map, ← hsent, houtput, List.append_nil]

/-- The sample run answers the requests of its link in order. -/
theorem php_exchange_sampleRun :
    ∃ s c, sampleRun.foldl (tick sampleServer) (some (start 2 1 ())) = some s ∧ s.links 0 = some c ∧
      [[ascii "auth", ascii "secret"], [ascii "get", ascii "k"]] = (s.answersOn 0).map Answered.req ∧
      ∃ st, PhpClient.recvMany 2 PhpClient.init [c.written] =
        some ([[ascii "ok", ascii "1"], [ascii "ok", ascii "k"]], st, []) := by
  obtain ⟨s, heq, hlinks⟩ := php_exchange sampleServer (fun _ => none) 0 rfl (fun _ _ => rfl) 2 1 () sampleRun
    sampleRun_guarded
  have hfinal : ((sampleRun.foldl (tick sampleServer) (some (start 2 1 ()))).bind fun s =>
      (s.links 0).map fun c => (c.read, c.written, c.output, (s.answersOn 0).map Answered.resp, decide (0 ∈ s.owned),
        decide (0 ∈ s.backend))) =
      some (ascii "4\nauth\n6\nsecret\n\n3\nget\n1\nk\n\n", ascii "2\nok\n1\n1\n\n2\nok\n1\nk\n\n", [],
        [[ascii "ok", ascii "1"], [ascii "ok", ascii "k"]], false, false) := by rfl
  rw [heq, Option.bind_some, Option.map_eq_some_iff] at hfinal
  obtain ⟨c, hc, hfields⟩ := hfinal
  simp only [Prod.mk.injEq, decide_eq_false_iff_not] at hfields
  obtain ⟨hread, hwritten, houtput, hresp, hout, hbackend⟩ := hfields
  have hsend : ∀ p ∈ [[ascii "auth", ascii "secret"], [ascii "get", ascii "k"]], Sendable p := by
    intro p hp
    simp only [List.mem_cons, List.not_mem_nil, or_false] at hp
    rcases hp with rfl | rfl <;> exact ⟨by decide, by decide⟩
  have hresps : ∀ a ∈ s.answersOn 0, Sendable a.resp := by
    intro a ha
    have hmem : a.resp ∈ (s.answersOn 0).map Answered.resp := List.mem_map_of_mem ha
    rw [hresp] at hmem
    simp only [List.mem_cons, List.not_mem_nil, or_false] at hmem
    rcases hmem with h | h <;> rw [h] <;> exact ⟨by decide, by decide⟩
  obtain ⟨-, -, hall, -, hclient⟩ := hlinks 0 c hc hbackend _ [] hsend (by rw [hread]; decide)
  have hlength : (s.answersOn 0).length = 2 := by
    rw [← List.length_map (f := Answered.resp), hresp]
    rfl
  obtain ⟨st, hrecv, -⟩ := hclient houtput hresps [c.written] (by simp) (by rw [hwritten]; decide)
  rw [hlength, hresp] at hrecv
  exact ⟨s, c, heq, hc, hall rfl hout, st, hrecv⟩

/-- **The password comes first.**  Where a password is needed, no command but `auth` is carried out for a
link on which the right one was not given before. -/
theorem password_first (cfg : ServerConfig σ) (hneed : cfg.needAuth = true) (readers writers : ℕ) (data : σ)
    (ls : List LoopStep) (h : Guarded (tick cfg) Possible (some (start readers writers data)) ls) :
    ∃ s, ls.foldl (tick cfg) (some (start readers writers data)) = some s ∧
      ∀ before a after, s.answered = before ++ a :: after → a.kind = .ran → a.req.headD [] ≠ ascii "auth" →
        ∃ b ∈ before, b.link = a.link ∧ b.kind = .ran ∧ ∃ name, b.req = [name, cfg.password] := by
  obtain ⟨s, heq, -, hreached⟩ := run_reached cfg readers writers data ls h
  refine ⟨s, heq, fun before a after hanswered hran hname => ?_⟩
  have hfilter : (s.view s.stages a.link).answers =
      before.filter (·.link = a.link) ++ a :: after.filter (·.link = a.link) := by
    rw [view, hanswered, List.filter_append, List.filter_cons_of_pos (by simp)]
  obtain ⟨b, hb, hbran, hright⟩ := (hreached a.link).guarded.ran hneed _ a _ hfilter hran hname
  obtain ⟨hmem, hlink⟩ := List.mem_filter.mp hb
  exact ⟨b, hmem, by simpa using hlink, hbran, hright⟩

/-- In the sample run the password comes first. -/
theorem password_first_sampleRun :
    ∃ s, sampleRun.foldl (tick sampleServer) (some (start 2 1 ())) = some s ∧
      ∀ before a after, s.answered = before ++ a :: after → a.kind = .ran → a.req.headD [] ≠ ascii "auth" →
        ∃ b ∈ before, b.link = a.link ∧ b.kind = .ran ∧ ∃ name, b.req = [name, ascii "secret"] :=
  password_first sampleServer rfl 2 1 () sampleRun sampleRun_guarded

end NetServer

end Ssdb
