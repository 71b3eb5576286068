/-
# What the steps of the server do

One lemma for each part of a step of the server, with all that it can come to: which link is replaced by
what, which events are subscribed, where the link is put.  The files about the places of the links, about
the order of the answers and about passwords only use these.
-/
import DoudizhuBackend.Ssdb.NetworkServer

namespace Ssdb

/-! ## Links -/

namespace Conn

/-- At most bytes were moved from the output to the socket. -/
structure Flushes (c c' : Conn) : Prop where
  fd : c'.fd = c.fd
  input : c'.input = c.input
  read : c'.read = c.read
  auth : c'.auth = c.auth
  recvData : c'.recvData = c.recvData
  sent : c'.written ++ c'.output = c.written ++ c.output

/-- Nothing has been written. -/
theorem Flushes.refl (c : Conn) : c.Flushes c := ⟨rfl, rfl, rfl, rfl, rfl, rfl⟩

/-- A write takes bytes from the front of the output. -/
theorem write_flushes (c : Conn) (w : WriteResult) : c.Flushes (c.write w) :=
  ⟨rfl, rfl, rfl, rfl, rfl, by simp [write]⟩

/-- Some bytes were read, and at most bytes were moved from the output to the socket. -/
structure Receives (c c' : Conn) (bytes : Bytes) : Prop where
  fd : c'.fd = c.fd
  input : c'.input = c.input ++ bytes
  read : c'.read = c.read ++ bytes
  auth : c'.auth = c.auth
  recvData : c'.recvData = c.recvData
  sent : c'.written ++ c'.output = c.written ++ c.output

/-- A link that only writes receives nothing. -/
theorem Flushes.receives {c c' : Conn} (h : c.Flushes c') : c.Receives c' [] :=
  ⟨h.fd, by simp [h.input], by simp [h.read], h.auth, h.recvData, h.sent⟩

/-- It may write after it has received. -/
theorem Receives.flushes {c c' c'' : Conn} {bytes : Bytes} (h : c.Receives c' bytes) (h' : c'.Flushes c'') :
    c.Receives c'' bytes :=
  ⟨h'.fd.trans h.fd, h'.input.trans h.input, h'.read.trans h.read, h'.auth.trans h.auth,
    h'.recvData.trans h.recvData, h'.sent.trans h.sent⟩

end Conn

namespace NetServer

variable {σ : Type} {cfg : ServerConfig σ} {s s' : NetServer σ} {id : ℕ} {c : Conn} {kind : AnswerKind}

/-- A link may be set to what it is. -/
theorem setLink_self (hc : s.links id = some c) : s.setLink id c = s := by
  rw [setLink, ← hc, Function.update_eq_self]

/-- The later of two changes of a link stays. -/
theorem setLink_setLink (c c' : Conn) : (s.setLink id c).setLink id c' = s.setLink id c' := by
  simp [setLink]

/-! ## Results and events -/

/-- `proc_result` deletes the link, or subscribes it for input, or puts it into a ready list. -/
inductive Settles (s : NetServer σ) (id : ℕ) (c : Conn) (second : Bool) : NetServer σ → Prop
  | deleted : Settles s id c second (s.deleteLink id c)
  | polled {c' : Conn} {t : Fdevents} (hc' : c.Flushes c') (ht : t = s.fdes ∨ t = s.fdes.set c.fd .output id)
      (hinput : c'.input = []) :
      Settles s id c second { s.setLink id c' with fdes := t.set c.fd .input id }
  | pushed {c' : Conn} {t : Fdevents} (hc' : c.Flushes c') (ht : t = s.fdes ∨ t = s.fdes.set c.fd .output id) :
      Settles s id c second
        (({ s.setLink id c' with fdes := t.clr c.fd .input } : NetServer σ).pushReady second id)

/-- What the loop does with a result. -/
theorem procResult_spec (hc : s.links id = some c) (result : ProcResult) (w : Conn.WriteResult)
    (second : Bool) : ∃ s', s.procResult id result w second = some s' ∧ s.Settles id c second s' := by
  have hc' : c.Flushes (if c.output = [] then c else c.write w) := by
    split
    · exact .refl c
    · exact c.write_flushes w
  simp only [procResult, hc]
  split
  · exact ⟨_, rfl, .deleted⟩
  split
  · exact ⟨_, rfl, .deleted⟩
  generalize (if c.output = [] then c else c.write w) = c' at hc' ⊢
  have ht : (if c'.output = [] then s.fdes else s.fdes.set c.fd .output id) = s.fdes ∨
      (if c'.output = [] then s.fdes else s.fdes.set c.fd .output id) = s.fdes.set c.fd .output id := by
    split
    · exact Or.inl rfl
    · exact Or.inr rfl
  simp only [hc'.fd]
  change ∃ s', (if c'.input = [] then some _ else some _) = some s' ∧ _
  split
  · rename_i hinput
    exact ⟨_, rfl, .polled hc' ht hinput⟩
  · exact ⟨_, rfl, .pushed hc' ht⟩

/-- `proc_client_event` reads, and puts the link into the ready list, or it only writes. -/
inductive Serves (s : NetServer σ) (id : ℕ) (c : Conn) : Bool → NetServer σ → Prop
  | reads {c' : Conn} {bytes : Bytes} {t : Fdevents} (hc' : c.Receives c' bytes)
      (ht : t = s.fdes ∨ t = s.fdes.clr c.fd .output) :
      Serves s id c true { (s.pushReady false id).setLink id c' with fdes := t }
  | writes {c' : Conn} {t : Fdevents} (hc' : c.Flushes c') (ht : t = s.fdes ∨ t = s.fdes.clr c.fd .output) :
      Serves s id c false { s.setLink id c' with fdes := t }

/-- What the loop does when a link can be written to. -/
theorem outEvent_spec (hc : s.links id = some c) (w : Conn.WriteResult) :
    ∃ c' t, s.outEvent id c w = { s.setLink id c' with fdes := t } ∧ c.Flushes c' ∧
      (t = s.fdes ∨ t = s.fdes.clr c.fd .output) := by
  rw [outEvent]
  split
  · refine ⟨c, s.fdes, ?_, .refl c, Or.inl rfl⟩
    rw [setLink_self hc]
  · dsimp only
    split
    · exact ⟨_, s.fdes, rfl, ⟨rfl, rfl, rfl, rfl, rfl, (c.write_flushes w).sent⟩, Or.inl rfl⟩
    split
    · exact ⟨_, _, rfl, c.write_flushes w, Or.inr rfl⟩
    · exact ⟨_, s.fdes, rfl, c.write_flushes w, Or.inl rfl⟩

/-- What the loop does with an event of a client. -/
theorem clientEvent_spec (hc : s.links id = some c) (events : EventFlag → Bool) (r : Conn.ReadResult)
    (w : Conn.WriteResult) :
    ∃ s', s.clientEvent id events r w = some s' ∧ s.Serves id c (events .input) s' := by
  simp only [clientEvent, hc]
  cases events .input with
  | false =>
      simp only [Bool.false_eq_true, if_false]
      split
      · obtain ⟨c', t, heq, hc', ht⟩ := outEvent_spec hc w
        rw [heq]
        exact ⟨_, rfl, .writes hc' ht⟩
      · refine ⟨s, rfl, ?_⟩
        have : s.Serves id c false { s.setLink id c with fdes := s.fdes } := .writes (.refl c) (Or.inl rfl)
        rwa [setLink_self hc] at this
  | true =>
      simp only [if_true]
      have hpushed : (s.pushReady false id).links id = some c := hc
      split
      · refine ⟨_, rfl, ?_⟩
        have : s.Serves id c true { (s.pushReady false id).setLink id c with fdes := s.fdes } :=
          .reads (Conn.Flushes.refl c).receives (Or.inl rfl)
        rwa [setLink_self hpushed] at this
      -- what was read is there whether or not something is written as well
      have hread : c.Receives (c.recvBytes r).1 r.bytes := ⟨rfl, rfl, rfl, rfl, rfl, rfl⟩
      split
      · exact ⟨_, rfl, .reads ⟨rfl, rfl, rfl, rfl, rfl, rfl⟩ (Or.inl rfl)⟩
      split
      · have hset : ((s.pushReady false id).setLink id (c.recvBytes r).1).links id = some (c.recvBytes r).1 :=
          Function.update_self ..
        obtain ⟨c', t, heq, hc', ht⟩ := outEvent_spec hset w
        refine ⟨_, rfl, ?_⟩
        rw [heq, setLink_setLink]
        exact .reads (hread.flushes hc') ht
      · exact ⟨_, rfl, .reads hread (Or.inl rfl)⟩

/-! ## Requests -/

/-- The request is the right password, or none is needed. -/
def Authenticates (cfg : ServerConfig σ) (req : Packet) : Prop :=
  cfg.needAuth = false ∨ ∃ name, req = [name, cfg.password]

/-- The check of `proc` lets a request through. -/
def Allowed (cfg : ServerConfig σ) (auth : Bool) (req : Packet) : Prop :=
  cfg.needAuth = true → auth = false → req.headD [] = ascii "auth"

/-- The request of the link is answered: what becomes of the link, and what is noted. -/
inductive Replies (cfg : ServerConfig σ) (s : NetServer σ) (id : ℕ) (c : Conn) (kind : AnswerKind) :
    NetServer σ → Prop
  | mk {c' : Conn} {resp : Packet} {data : σ} (hfd : c'.fd = c.fd) (hinput : c'.input = c.input)
      (hread : c'.read = c.read) (hrecv : c'.recvData = c.recvData)
      (hsent : c'.written ++ c'.output = c.written ++ c.output ++ (cfg.send c.recvData resp).getD [])
      (hkeep : c.auth = true → c'.auth = true)
      (hauth : c'.auth = true → c.auth = true ∨ kind = .ran ∧ Authenticates cfg c.recvData) :
      Replies cfg s id c kind
        { s.setLink id c' with data := data, answered := s.answered ++ [⟨id, c.recvData, resp, kind⟩] }

/-- An answer without a run of a command. -/
theorem answer_spec (cfg : ServerConfig σ) (s : NetServer σ) (id : ℕ) (c : Conn) (kind : AnswerKind)
    (resp : Packet) (result : ProcResult) (data : σ) (auth : Bool) (hkeep : c.auth = true → auth = true)
    (hauth : auth = true → c.auth = true ∨ kind = .ran ∧ Authenticates cfg c.recvData) :
    s.Replies cfg id c kind
      (({ s with data := data } : NetServer σ).answer cfg id { c with auth := auth } kind resp result).2 := by
  rw [answer, respond]
  cases hsend : cfg.send c.recvData resp with
  | none =>
      refine @Replies.mk σ cfg s id c kind { c with auth := auth } resp data rfl rfl rfl rfl ?_ hkeep hauth
      simp [hsend]
  | some bytes =>
      refine @Replies.mk σ cfg s id c kind { c with auth := auth, output := c.output ++ bytes } resp data rfl rfl
        rfl rfl ?_ hkeep hauth
      simp [hsend]

/-- An answer without a command leaves the data and the password alone. -/
theorem answer_spec_self (cfg : ServerConfig σ) (s : NetServer σ) (id : ℕ) (c : Conn) (kind : AnswerKind)
    (resp : Packet) (result : ProcResult) : s.Replies cfg id c kind (s.answer cfg id c kind resp result).2 :=
  answer_spec cfg s id c kind resp result s.data c.auth (fun h => h) Or.inl

/-- A command never takes an accepted password back, and only `auth` accepts one. -/
theorem runProc_auth (cfg : ServerConfig σ) (data : σ) (id : ℕ) (auth : Bool) (req : Packet) (p : Proc σ) :
    (auth = true → (runProc cfg data id auth req p).2.2.2 = true) ∧
      ((runProc cfg data id auth req p).2.2.2 = true → auth = true ∨ Authenticates cfg req) := by
  cases p with
  | data p => exact ⟨fun h => h, Or.inl⟩
  | auth =>
      rw [runProc.eq_def]
      match req with
      | [] | [_] | _ :: _ :: _ :: _ => exact ⟨fun h => h, Or.inl⟩
      | [name, word] =>
          dsimp only
          split
          · rename_i h
            refine ⟨fun _ => rfl, fun _ => Or.inr ?_⟩
            exact h.imp_right fun hword => ⟨name, by rw [hword]⟩
          · exact ⟨fun h => h, Or.inl⟩

/-- What the call of a command does to its link. -/
theorem callProc_spec (cfg : ServerConfig σ) (s : NetServer σ) (id : ℕ) (c : Conn) (p : Proc σ) :
    s.Replies cfg id c .ran (s.callProc cfg id c p).2 := by
  obtain ⟨hkeep, hauth⟩ := runProc_auth cfg s.data id c.auth c.recvData p
  exact answer_spec cfg s id c .ran _ _ _ _ hkeep fun h => (hauth h).imp_right fun h => ⟨rfl, h⟩

/-- `proc`: the request is answered, and the link goes on or to a thread of its own; or the request is
given to a pool. -/
inductive Handles (cfg : ServerConfig σ) (s : NetServer σ) (id : ℕ) (c : Conn) : NetServer σ → Prop
  | settled {kind : AnswerKind} {s₁ s' : NetServer σ} {c₁ : Conn}
      (hkind : kind = .ran → Allowed cfg c.auth c.recvData) (hs₁ : s.Replies cfg id c kind s₁)
      (hc₁ : s₁.links id = some c₁) (hs' : s₁.Settles id c₁ true s') : Handles cfg s id c s'
  | lent (writer : Bool) (p : Proc σ) (hallowed : Allowed cfg c.auth c.recvData) :
      Handles cfg s id c
        { s.setPool writer { s.pool writer with jobs := (s.pool writer).jobs ++ [⟨id, p, .ok⟩] } with
          fdes := s.fdes.del c.fd }
  | backend {s₁ : NetServer σ} (hallowed : Allowed cfg c.auth c.recvData) (hs₁ : s.Replies cfg id c .ran s₁) :
      Handles cfg s id c
        { s₁ with
          fdes := s₁.fdes.del c.fd
          linkCount := s₁.linkCount - 1
          backend := id :: s₁.backend }

/-- A link that has been replied to is still there. -/
theorem Replies.link (h : s.Replies cfg id c kind s') : ∃ c', s'.links id = some c' ∧ c'.fd = c.fd := by
  obtain ⟨hfd, -⟩ := h
  exact ⟨_, Function.update_self .., hfd⟩

/-- What was answered is settled. -/
theorem handles_settled {kind : AnswerKind} (hkind : kind = .ran → Allowed cfg c.auth c.recvData)
    (hs' : s.Replies cfg id c kind s') (result : ProcResult) (w : Conn.WriteResult) :
    ∃ s'', s'.procResult id result w true = some s'' ∧ s.Handles cfg id c s'' := by
  obtain ⟨c', hc', -⟩ := hs'.link
  obtain ⟨s'', heq, hs''⟩ := procResult_spec hc' result w true
  exact ⟨s'', heq, .settled hkind hs' hc' hs''⟩

/-- What the loop does with a request. -/
theorem proc_spec (cfg : ServerConfig σ) (s : NetServer σ) (id : ℕ) (c : Conn) (w : Conn.WriteResult) :
    ∃ s', s.proc cfg id c w = some s' ∧ s.Handles cfg id c s' := by
  rw [proc]
  dsimp only
  split
  · exact handles_settled (by simp) (answer_spec_self cfg s id c _ _ _) _ w
  rename_i hgate
  have hallowed : Allowed cfg c.auth c.recvData := by
    intro hneed hauth
    by_contra hname
    exact hgate ⟨hneed, hauth, hname⟩
  split
  · exact handles_settled (by simp) (answer_spec_self cfg s id c _ _ _) _ w
  rename_i cmd _
  split
  · refine ⟨_, rfl, ?_⟩
    have : s.Handles cfg id c _ := .lent cmd.write cmd.proc hallowed
    cases hwrite : cmd.write <;> rw [hwrite] at this <;> exact this
  have hran := callProc_spec cfg s id c cmd.proc
  split
  · exact ⟨_, rfl, .backend hallowed hran⟩
  · exact handles_settled (fun _ => hallowed) hran _ w

/-- One link of the ready list: it is deleted, or waits for the rest of its request, or its request is
handled. -/
inductive Takes (cfg : ServerConfig σ) (s : NetServer σ) (id : ℕ) (c : Conn) : NetServer σ → Prop
  | deleted : Takes cfg s id c (s.deleteLink id c)
  | waits {input : Bytes} (hrecv : cfg.recv c.input = some (input, [])) :
      Takes cfg s id c
        { s.setLink id { c with input := input, recvData := [] } with fdes := s.fdes.set c.fd .input id }
  | handles {input : Bytes} {req : Packet} {s' : NetServer σ} (hrecv : cfg.recv c.input = some (input, req))
      (hreq : req ≠ [])
      (hs' : (s.setLink id { c with input := input, recvData := req }).Handles cfg id
        { c with input := input, recvData := req } s') : Takes cfg s id c s'

/-- What the loop does with the next link of its list. -/
theorem readyLink_spec (cfg : ServerConfig σ) (hc : s.links id = some c) (w : Conn.WriteResult) :
    ∃ s', s.readyLink cfg id w = some s' ∧ s.Takes cfg id c s' := by
  simp only [readyLink, hc]
  split
  · exact ⟨_, rfl, .deleted⟩
  cases hrecv : cfg.recv c.input with
  | none => exact ⟨_, rfl, .deleted⟩
  | some r =>
      obtain ⟨input, req⟩ := r
      dsimp only
      split
      · rename_i hreq
        subst hreq
        exact ⟨_, rfl, .waits hrecv⟩
      · rename_i hreq
        obtain ⟨s', heq, hs'⟩ := proc_spec cfg (s.setLink id { c with input := input, recvData := req }) id
          { c with input := input, recvData := req } w
        exact ⟨s', heq, .handles hrecv hreq hs'⟩

/-! ## Workers -/

/-- A worker carries out its job: the request is answered, and the answer may be written. -/
inductive Carries (cfg : ServerConfig σ) (s : NetServer σ) (writer : Bool) (k : ℕ) (job : Job σ) (c : Conn) :
    NetServer σ → Prop
  | mk {s₁ : NetServer σ} {c₁ c₂ : Conn} (result : ProcResult) (hs₁ : s.Replies cfg job.link c .ran s₁)
      (hc₁ : s₁.links job.link = some c₁) (hc₂ : c₁.Flushes c₂) :
      Carries cfg s writer k job c ((s₁.setLink job.link c₂).setPool writer
        { s.pool writer with workers := (s.pool writer).workers.set k (.done { job with result := result }) })

/-- A reply keeps the pools. -/
theorem Replies.pool (h : s.Replies cfg id c kind s') (writer : Bool) : s'.pool writer = s.pool writer := by
  obtain ⟨-⟩ := h
  cases writer <;> rfl

/-- What a worker does with its job. -/
theorem step_run_spec (cfg : ServerConfig σ) {writer : Bool} {k : ℕ} {job : Job σ} (w : Conn.WriteResult)
    (hk : (s.pool writer).workers[k]? = some (.taken job)) (hc : s.links job.link = some c) :
    ∃ s', step cfg s (.run writer k w) = some s' ∧ s.Carries cfg writer k job c s' := by
  have hran := callProc_spec cfg s job.link c job.proc
  obtain ⟨c₁, hc₁, -⟩ := hran.link
  have hpool : ∀ c₂, (((s.callProc cfg job.link c job.proc).2.setLink job.link c₂).pool writer) =
      s.pool writer := by
    intro c₂
    rw [← hran.pool writer]
    cases writer <;> rfl
  simp only [step, hk, hc, hc₁]
  split
  · rw [hpool]
    exact ⟨_, rfl, .mk _ hran hc₁ (c₁.write_flushes w)⟩
  · refine ⟨_, rfl, ?_⟩
    rw [hran.pool]
    have hleft : s.Carries cfg writer k job c _ := .mk
      (if (cfg.send c.recvData (runProc cfg s.data job.link c.auth c.recvData job.proc).2.1).isSome ∧
        w.failed = true then .error else (s.callProc cfg job.link c job.proc).1) hran hc₁ (.refl c₁)
    rwa [setLink_self hc₁] at hleft

end NetServer

/-! ## Steps -/

/-- The links of the job that a thread of a pool has. -/
def Worker.links : Worker σ → List ℕ
  | .idle => []
  | .taken job => [job.link]
  | .done job => [job.link]

/-- The links of the jobs of a pool. -/
def Pool.held (p : Pool σ) : List ℕ :=
  p.jobs.map Job.link ++ p.workers.flatMap Worker.links ++ p.results.map Job.link

namespace NetServer

/-- The links in the pools and with threads of their own. -/
def away (s : NetServer σ) : List ℕ := s.reader.held ++ s.writer.held ++ s.backend

/-- The links that a list, a pool or a thread has. -/
def owned (s : NetServer σ) : List ℕ := s.readyList ++ s.readyList2 ++ s.away

/-- All that a step can do. -/
inductive Does (cfg : ServerConfig σ) : NetServer σ → NetServer σ → Prop
  | turns {s : NetServer σ} (phase : LoopPhase) {ready second : List ℕ}
      (hlists : (ready ++ second).Perm (s.readyList ++ s.readyList2)) :
      Does cfg s { s with phase := phase, readyList := ready, readyList2 := second }
  | event {s s' : NetServer σ} {phase : LoopPhase} (h : Does cfg { s with phase := phase } s') : Does cfg s s'
  | accepts (s : NetServer σ) (accepted : Option (ℕ × Bytes)) : Does cfg s (s.acceptLink cfg accepted)
  | settles {s s' : NetServer σ} {writer : Bool} {job : Job σ} {rest : List (Job σ)} {c : Conn}
      (hresults : (s.pool writer).results = job :: rest) (hc : s.links job.link = some c)
      (hs' : (s.setPool writer { s.pool writer with results := rest }).Settles job.link c false s') :
      Does cfg s s'
  | serves {s s' : NetServer σ} {id : ℕ} {c : Conn} {readable : Bool} (hc : s.links id = some c)
      (hout : readable = true → id ∉ s.owned) (hs' : s.Serves id c readable s') : Does cfg s s'
  | takes {s s' : NetServer σ} {id : ℕ} {rest : List ℕ} {c : Conn} (hready : s.readyList = id :: rest)
      (hc : s.links id = some c) (hs' : ({ s with readyList := rest } : NetServer σ).Takes cfg id c s') :
      Does cfg s s'
  | fetches {s : NetServer σ} {writer : Bool} {k : ℕ} {job : Job σ} {rest : List (Job σ)}
      (hk : (s.pool writer).workers[k]? = some .idle) (hjobs : (s.pool writer).jobs = job :: rest) :
      Does cfg s (s.setPool writer
        { s.pool writer with jobs := rest, workers := (s.pool writer).workers.set k (.taken job) })
  | carries {s s' : NetServer σ} {writer : Bool} {k : ℕ} {job : Job σ} {c : Conn}
      (hk : (s.pool writer).workers[k]? = some (.taken job)) (hc : s.links job.link = some c)
      (hs' : s.Carries cfg writer k job c s') : Does cfg s s'
  | finishes {s : NetServer σ} {writer : Bool} {k : ℕ} {job : Job σ}
      (hk : (s.pool writer).workers[k]? = some (.done job)) :
      Does cfg s (s.setPool writer
        { s.pool writer with
          results := (s.pool writer).results ++ [job]
          workers := (s.pool writer).workers.set k .idle })
  | closes {s : NetServer σ} {id : ℕ} {c : Conn} (hid : id ∈ s.backend) (hc : s.links id = some c) :
      Does cfg s { s with backend := s.backend.erase id, links := Function.update s.links id none }

/-- Nothing may happen. -/
theorem Does.refl (cfg : ServerConfig σ) (s : NetServer σ) : Does cfg s s :=
  .turns s.phase (.refl _)

end NetServer

end Ssdb
