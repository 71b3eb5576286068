/-
# The event loop of the server

`ssdb-master/src/net/server.cpp` (`serve`, `proc`, `proc_result`, `proc_client_event`, `accept_link`,
`proc_auth`), `net/fde_epoll.cpp`, `net/worker.cpp` and the pools of `util/thread.h`.

One thread runs the loop: it waits for events, works them off, and then works off the list of links that
have something to be read.  A request is answered at once, or given to the workers of a pool, or to a
thread of its own (`PROC_BACKEND`); a worker puts the job into the queue of results, which wakes the
loop.  A link is deleted by whoever has it at that moment, and the address of a deleted link may not be
used any more: a step that does so has no result.

The commands, the protocol on the links and what the commands work on are parameters.  A command has its own
link and no other: what `info` and `flushdb` read of other links, by the list of workers that `BackendSync`
keeps, is left out, and so is what the thread of a backend command writes on the link that it has.  Times,
statistics, log texts and the end of the server are left out as well, and the bytes of the buffers beyond
their contents.
-/
import DoudizhuBackend.Ssdb.Wire
import Mathlib.Logic.Function.Basic

namespace Ssdb

/-! ## Subscribed events -/

/-- `FDEVENT_IN` and `FDEVENT_OUT`. -/
inductive EventFlag where
  | input | output
  deriving DecidableEq

/-- `Fdevent`: the events that are subscribed, and the link that they are for. -/
structure Fdevent where
  flags : EventFlag → Bool
  link : ℕ

/-- `Fdevents`, by descriptors. -/
abbrev Fdevents := ℕ → Fdevent

namespace Fdevents

/-- `set`; where the event is subscribed already, the link stays as well. -/
def set (t : Fdevents) (fd : ℕ) (flag : EventFlag) (link : ℕ) : Fdevents :=
  if (t fd).flags flag then t
  else Function.update t fd ⟨Function.update (t fd).flags flag true, link⟩

/-- `clr`. -/
def clr (t : Fdevents) (fd : ℕ) (flag : EventFlag) : Fdevents :=
  if (t fd).flags flag then
    Function.update t fd { t fd with flags := Function.update (t fd).flags flag false }
  else t

/-- `del`; where nothing is subscribed, `epoll_ctl` fails. -/
def del (t : Fdevents) (fd : ℕ) : Fdevents := Function.update t fd { t fd with flags := fun _ => false }

variable (t : Fdevents) {fd fd' : ℕ} (flag f : EventFlag) (link : ℕ)

/-- `set` adds a flag. -/
theorem set_flags : ((t.set fd flag link) fd').flags f = true ↔
    (t fd').flags f = true ∨ fd' = fd ∧ f = flag := by
  unfold set
  split
  · rename_i h
    constructor
    · exact Or.inl
    · rintro (h' | ⟨rfl, rfl⟩)
      · exact h'
      · exact h
  · rcases eq_or_ne fd' fd with rfl | hfd
    · rcases eq_or_ne f flag with rfl | hf
      · simp
      · simp [hf]
    · simp [hfd]

/-- `set` may name a new link. -/
theorem set_link (fd fd' : ℕ) : ((t.set fd flag link) fd').link = (t fd').link ∨
    fd' = fd ∧ ((t.set fd flag link) fd').link = link := by
  unfold set
  split
  · exact Or.inl rfl
  · rcases eq_or_ne fd' fd with rfl | hfd
    · exact Or.inr ⟨rfl, by rw [Function.update_self]⟩
    · exact Or.inl (by rw [Function.update_of_ne hfd])

/-- `set` keeps the other descriptors. -/
theorem set_of_ne (hfd : fd' ≠ fd) : (t.set fd flag link) fd' = t fd' := by
  unfold set
  split
  · rfl
  · exact Function.update_of_ne hfd _ _

/-- A descriptor that was not watched gets the link. -/
theorem set_link_self (h : (t fd).flags = fun _ => false) : ((t.set fd flag link) fd).link = link := by
  simp [set, h]

/-- `clr` takes a flag. -/
theorem clr_flags : ((t.clr fd flag) fd').flags f = true ↔
    (t fd').flags f = true ∧ ¬ (fd' = fd ∧ f = flag) := by
  unfold clr
  split
  · rcases eq_or_ne fd' fd with rfl | hfd
    · rcases eq_or_ne f flag with rfl | hf
      · simp
      · simp [hf]
    · simp [hfd]
  · rename_i h
    refine ⟨fun h' => ⟨h', ?_⟩, And.left⟩
    rintro ⟨rfl, rfl⟩
    exact h h'

@[simp] theorem clr_link : ((t.clr fd flag) fd').link = (t fd').link := by
  unfold clr
  split
  · rcases eq_or_ne fd' fd with rfl | hfd
    · rw [Function.update_self]
    · rw [Function.update_of_ne hfd]
  · rfl

/-- `clr` keeps the other descriptors. -/
theorem clr_of_ne (hfd : fd' ≠ fd) : (t.clr fd flag) fd' = t fd' := by
  unfold clr
  split
  · exact Function.update_of_ne hfd _ _
  · rfl

/-- `del` takes all flags. -/
theorem del_flags : ((t.del fd) fd').flags f = true ↔ (t fd').flags f = true ∧ fd' ≠ fd := by
  rcases eq_or_ne fd' fd with rfl | hfd
  · simp [del]
  · simp [del, hfd]

@[simp] theorem del_link : ((t.del fd) fd').link = (t fd').link := by
  rcases eq_or_ne fd' fd with rfl | hfd
  · simp [del]
  · simp [del, Function.update_of_ne hfd]

/-- `del` keeps the other descriptors. -/
theorem del_of_ne (hfd : fd' ≠ fd) : (t.del fd) fd' = t fd' := Function.update_of_ne hfd _ _

end Fdevents

/-! ## Links -/

/-- `Link`, with all that was read from its socket and written to it. -/
structure Conn where
  fd : ℕ
  input : Bytes
  output : Bytes
  error : Bool
  auth : Bool
  recvData : Packet
  read : Bytes
  written : Bytes

namespace Conn

/-- `accept`. -/
def new (fd : ℕ) : Conn := ⟨fd, [], [], false, false, [], [], []⟩

/-- What a call of `Link::read` comes to: the bytes that it reads before the socket has no more, or is
closed or broken. -/
structure ReadResult where
  bytes : Bytes
  ended : Bool

/-- `Link::read`; the result is not positive at the end of the stream, and when nothing was read. -/
def recvBytes (c : Conn) (r : ReadResult) : Conn × Bool :=
  ({ c with input := c.input ++ r.bytes, read := c.read ++ r.bytes }, r.ended ∨ r.bytes = [])

/-- What a call of `Link::write` comes to: the bytes that the socket takes, or an error. -/
structure WriteResult where
  taken : ℕ
  failed : Bool

/-- `Link::write`. -/
def write (c : Conn) (w : WriteResult) : Conn :=
  { c with output := c.output.drop w.taken, written := c.written ++ c.output.take w.taken }

end Conn

/-! ## Commands -/

/-- `PROC_OK`, `PROC_ERROR` and `PROC_BACKEND`. -/
inductive ProcResult where
  | ok | error | backend
  deriving DecidableEq

/-- `proc_auth`, or a command on the data `σ`: the result, the response and the data behind it, for the
link and the request. -/
inductive Proc (σ : Type) where
  | auth
  | data (p : ℕ → Packet → σ → ProcResult × Packet × σ)

/-- `Command`: its flags and what it does.  The commands that answer `PROC_BACKEND` (`dump` and `sync140`)
are registered without `FLAG_THREAD`. -/
structure Command (σ : Type) where
  thread : Bool
  write : Bool
  proc : Proc σ

/-- The settings of the server and the protocol of its links: what `Link::recv` makes of an input, and
what `Link::send` appends to the output for a request and its response, if it can. -/
structure ServerConfig (σ : Type) where
  needAuth : Bool
  password : Bytes
  procMap : Bytes → Option (Command σ)
  checkPass : σ → Bytes → Bool
  recv : Bytes → Option (Bytes × Packet)
  send : Packet → Packet → Option Bytes

/-- `ProcJob`. -/
structure Job (σ : Type) where
  link : ℕ
  proc : Proc σ
  result : ProcResult

/-- A thread of a pool: it waits for a job, has taken one, or has carried it out. -/
inductive Worker (σ : Type) where
  | idle
  | taken (job : Job σ)
  | done (job : Job σ)

/-- `ProcWorkerPool`. -/
structure Pool (σ : Type) where
  jobs : List (Job σ)
  workers : List (Worker σ)
  results : List (Job σ)

/-! ## The server -/

/-- What `epoll_wait` reports. -/
inductive ServerEvent where
  | accept
  | result (writer : Bool)
  | client (fd : ℕ) (events : EventFlag → Bool)

/-- Where the loop stands. -/
inductive LoopPhase where
  | wait
  | events (es : List ServerEvent)
  | ready

/-- How a request was answered: without its command, or by it. -/
inductive AnswerKind where
  | refused | unknown | ran
  deriving DecidableEq

/-- A request that was answered. -/
structure Answered where
  link : ℕ
  req : Packet
  resp : Packet
  kind : AnswerKind

/-- `NetworkServer`, with the links by their addresses, the data of the commands and all requests that
were answered, in their order. -/
structure NetServer (σ : Type) where
  phase : LoopPhase
  readyList : List ℕ
  readyList2 : List ℕ
  fdes : Fdevents
  links : ℕ → Option Conn
  next : ℕ
  linkCount : ℤ
  reader : Pool σ
  writer : Pool σ
  backend : List ℕ
  data : σ
  answered : List Answered

namespace NetServer

variable {σ : Type}

/-- The server before its first turn. -/
def start (readers writers : ℕ) (data : σ) : NetServer σ where
  phase := .wait
  readyList := []
  readyList2 := []
  fdes := fun _ => ⟨fun _ => false, 0⟩
  links := fun _ => none
  next := 0
  linkCount := 0
  reader := ⟨[], List.replicate readers .idle, []⟩
  writer := ⟨[], List.replicate writers .idle, []⟩
  backend := []
  data := data
  answered := []

/-- The server with one link changed. -/
def setLink (s : NetServer σ) (id : ℕ) (c : Conn) : NetServer σ :=
  { s with links := Function.update s.links id (some c) }

/-- The pool of readers or of writers. -/
def pool (s : NetServer σ) (writer : Bool) : Pool σ := if writer then s.writer else s.reader

/-- The server with one pool changed. -/
def setPool (s : NetServer σ) (writer : Bool) (p : Pool σ) : NetServer σ :=
  if writer then { s with writer := p } else { s with reader := p }

/-- `link_count --`, `fdes->del` and `delete link`. -/
def deleteLink (s : NetServer σ) (id : ℕ) (c : Conn) : NetServer σ :=
  { s with
    linkCount := s.linkCount - 1
    fdes := s.fdes.del c.fd
    links := Function.update s.links id none }

/-- `ready_list->push_back`, on one of the two lists. -/
def pushReady (s : NetServer σ) (second : Bool) (id : ℕ) : NetServer σ :=
  if second then { s with readyList2 := s.readyList2 ++ [id] }
  else { s with readyList := s.readyList ++ [id] }

/-- `proc_result`. -/
def procResult (s : NetServer σ) (id : ℕ) (result : ProcResult) (w : Conn.WriteResult) (second : Bool) :
    Option (NetServer σ) :=
  match s.links id with
  | none => none
  | some c =>
      if result = .error then some (s.deleteLink id c)
      else if c.output ≠ [] ∧ w.failed then some (s.deleteLink id c)
      else
        let c := if c.output = [] then c else c.write w
        let s := s.setLink id c
        let fdes := if c.output = [] then s.fdes else s.fdes.set c.fd .output id
        -- what was read already is parsed in the next turn of the loop
        if c.input = [] then some { s with fdes := fdes.set c.fd .input id }
        else some ({ s with fdes := fdes.clr c.fd .input }.pushReady second id)

/-- `accept_link` and what the loop does with its result. -/
def acceptLink (cfg : ServerConfig σ) (s : NetServer σ) : Option (ℕ × Bytes) → NetServer σ
  | none => s
  | some (fd, ip) =>
      if cfg.checkPass s.data ip then
        { s with
          links := Function.update s.links s.next (some (.new fd))
          next := s.next + 1
          linkCount := s.linkCount + 1
          fdes := s.fdes.set fd .input s.next }
      else s

/-- The branch of `FDEVENT_OUT` in `proc_client_event`. -/
def outEvent (s : NetServer σ) (id : ℕ) (c : Conn) (w : Conn.WriteResult) : NetServer σ :=
  if c.error then s
  else
    let c' := c.write w
    if w.failed ∨ w.taken = 0 ∨ c.output = [] then s.setLink id { c' with error := true }
    else
      let s := s.setLink id c'
      if c'.output = [] then { s with fdes := s.fdes.clr c.fd .output } else s

/-- `proc_client_event`. -/
def clientEvent (s : NetServer σ) (id : ℕ) (events : EventFlag → Bool) (r : Conn.ReadResult)
    (w : Conn.WriteResult) : Option (NetServer σ) :=
  match s.links id with
  | none => none
  | some c =>
      if events .input then
        -- a link in error is pushed as well, and deleted when its turn comes
        let s := s.pushReady false id
        if c.error then some s
        else
          let (c, ended) := c.recvBytes r
          if ended then some (s.setLink id { c with error := true })
          else if events .output then some ((s.setLink id c).outEvent id c w)
          else some (s.setLink id c)
      else if events .output then some (s.outEvent id c w)
      else some s

/-! ## Requests -/

/-- A call of the command: its result and response, the data behind it, and `link->auth`. -/
def runProc (cfg : ServerConfig σ) (data : σ) (id : ℕ) (auth : Bool) (req : Packet) :
    Proc σ → ProcResult × Packet × σ × Bool
  | .auth =>
      match req with
      | [_, word] =>
          if cfg.needAuth = false ∨ word = cfg.password then (.ok, [ascii "ok", ascii "1"], data, true)
          else (.ok, [ascii "error", ascii "invalid password"], data, auth)
      | _ => (.ok, [ascii "client_error"], data, auth)
  | .data p =>
      let (result, resp, data) := p id req data
      (result, resp, data, auth)

/-- A response is sent on the link: what becomes of the result, and the link. -/
def respond (cfg : ServerConfig σ) (c : Conn) (resp : Packet) (result : ProcResult) : ProcResult × Conn :=
  match cfg.send c.recvData resp with
  | none => (.error, c)
  | some bytes => (result, { c with output := c.output ++ bytes })

/-- A response is sent on the link `id`, and noted. -/
def answer (cfg : ServerConfig σ) (s : NetServer σ) (id : ℕ) (c : Conn) (kind : AnswerKind) (resp : Packet)
    (result : ProcResult) : ProcResult × NetServer σ :=
  let (result, c') := respond cfg c resp result
  (result, { s.setLink id c' with answered := s.answered ++ [⟨id, c.recvData, resp, kind⟩] })

/-- A command is called for the request of the link and its response is sent. -/
def callProc (cfg : ServerConfig σ) (s : NetServer σ) (id : ℕ) (c : Conn) (p : Proc σ) :
    ProcResult × NetServer σ :=
  let (result, resp, data, auth) := runProc cfg s.data id c.auth c.recvData p
  answer cfg { s with data := data } id { c with auth := auth } .ran resp result

/-- `proc` and what the loop does with its result. -/
def proc (cfg : ServerConfig σ) (s : NetServer σ) (id : ℕ) (c : Conn) (w : Conn.WriteResult) :
    Option (NetServer σ) :=
  let name := c.recvData.headD []
  if cfg.needAuth ∧ c.auth = false ∧ name ≠ ascii "auth" then
    let (result, s) := answer cfg s id c .refused [ascii "noauth", ascii "authentication required"] .ok
    s.procResult id result w true
  else
    match cfg.procMap name with
    | none =>
        let (result, s) := answer cfg s id c .unknown
          [ascii "client_error", ascii "Unknown Command: " ++ name] .ok
        s.procResult id result w true
    | some cmd =>
        if cmd.thread then
          -- `PROC_THREAD`: the link is away until the result of the job is read
          let p := s.pool cmd.write
          let s := s.setPool cmd.write { p with jobs := p.jobs ++ [⟨id, cmd.proc, .ok⟩] }
          some { s with fdes := s.fdes.del c.fd }
        else
          let (result, s) := callProc cfg s id c cmd.proc
          if result = .backend then
            -- `PROC_BACKEND`: the thread of the command has the link once the loop has let go of it
            some { s with
              fdes := s.fdes.del c.fd
              linkCount := s.linkCount - 1
              backend := id :: s.backend }
          else s.procResult id result w true

/-- One link of the ready list. -/
def readyLink (cfg : ServerConfig σ) (s : NetServer σ) (id : ℕ) (w : Conn.WriteResult) :
    Option (NetServer σ) :=
  match s.links id with
  | none => none
  | some c =>
      if c.error then some (s.deleteLink id c)
      else
        match cfg.recv c.input with
        | none => some (s.deleteLink id c)
        | some (input, req) =>
            let c := { c with input := input, recvData := req }
            let s := s.setLink id c
            if req = [] then some { s with fdes := s.fdes.set c.fd .input id }
            else s.proc cfg id c w

/-! ## Steps -/

/-- What the environment decides in the course of an event. -/
structure EventInput where
  accepted : Option (ℕ × Bytes)
  read : Conn.ReadResult
  written : Conn.WriteResult

/-- A step of the loop (waiting, one event, one link of the ready list), of a worker (taking a job,
carrying it out, putting it into the queue of results), or the end of a link that a thread has of its
own. -/
inductive LoopStep where
  | wait (es : List ServerEvent)
  | event (i : EventInput)
  | ready (w : Conn.WriteResult)
  | take (writer : Bool) (k : ℕ)
  | run (writer : Bool) (k : ℕ) (w : Conn.WriteResult)
  | finish (writer : Bool) (k : ℕ)
  | closeBackend (id : ℕ)

/-- The descriptor of an event. -/
def ServerEvent.fd : ServerEvent → Option ℕ
  | .client fd _ => some fd
  | _ => none

/-- The pool whose result an event announces. -/
def ServerEvent.pool : ServerEvent → Option Bool
  | .result writer => some writer
  | _ => none

/-- What can be reported: each descriptor and each pool at most once, a descriptor for which something is
subscribed, with events that are subscribed, and a pool with results. -/
structure Reports (s : NetServer σ) (es : List ServerEvent) : Prop where
  fds : (es.filterMap ServerEvent.fd).Nodup
  pools : (es.filterMap ServerEvent.pool).Nodup
  client : ∀ fd events, .client fd events ∈ es → (∃ flag, (s.fdes fd).flags flag) ∧
    ∀ flag, events flag → (s.fdes fd).flags flag
  result : ∀ writer, .result writer ∈ es → (s.pool writer).results ≠ []

/-- A descriptor that is given to a new connection is not open. -/
def Closed (s : NetServer σ) (fd : ℕ) : Prop := ∀ id c, s.links id = some c → c.fd ≠ fd

/-- One event. -/
def eventStep (cfg : ServerConfig σ) (s : NetServer σ) (i : EventInput) : ServerEvent → Option (NetServer σ)
  | .accept => some (s.acceptLink cfg i.accepted)
  | .result writer =>
      match (s.pool writer).results with
      | [] => none
      | job :: rest =>
          (s.setPool writer { s.pool writer with results := rest }).procResult job.link job.result i.written
            false
  | .client fd events => s.clientEvent (s.fdes fd).link events i.read i.written

/-- A step that the environment can take; the others are not steps. -/
def Enabled (s : NetServer σ) : LoopStep → Prop
  | .wait es => s.Reports es
  | .event i => ∀ a ∈ i.accepted, s.Closed a.1
  | _ => True

/-- A step; one that does not apply changes nothing, and one that uses a deleted link has no result. -/
def step (cfg : ServerConfig σ) (s : NetServer σ) : LoopStep → Option (NetServer σ)
  | .wait es =>
      match s.phase with
      | .wait => some { s with phase := .events es, readyList := s.readyList2, readyList2 := [] }
      | _ => some s
  | .event i =>
      match s.phase with
      | .events [] => some { s with phase := .ready }
      | .events (e :: es) => { s with phase := .events es }.eventStep cfg i e
      | _ => some s
  | .ready w =>
      match s.phase, s.readyList with
      | .ready, [] => some { s with phase := .wait }
      | .ready, id :: rest => { s with readyList := rest }.readyLink cfg id w
      | _, _ => some s
  | .take writer k =>
      let p := s.pool writer
      match p.workers[k]?, p.jobs with
      | some .idle, job :: rest =>
          some (s.setPool writer { p with jobs := rest, workers := p.workers.set k (.taken job) })
      | _, _ => some s
  | .run writer k w =>
      let p := s.pool writer
      match p.workers[k]? with
      | some (.taken job) =>
          match s.links job.link with
          | none => none
          | some c =>
              -- a response that could be sent is written at once, whatever the command returned
              let sent := (cfg.send c.recvData (runProc cfg s.data job.link c.auth c.recvData job.proc).2.1).isSome
              let (result, s) := s.callProc cfg job.link c job.proc
              match s.links job.link with
              | none => none
              | some c =>
                  let s := if sent then s.setLink job.link (c.write w) else s
                  let result := if sent ∧ w.failed then .error else result
                  let p := s.pool writer
                  some (s.setPool writer
                    { p with workers := p.workers.set k (.done { job with result := result }) })
      | _ => some s
  | .finish writer k =>
      let p := s.pool writer
      match p.workers[k]? with
      | some (.done job) =>
          some (s.setPool writer { p with results := p.results ++ [job], workers := p.workers.set k .idle })
      | _ => some s
  | .closeBackend id =>
      if id ∈ s.backend then
        match s.links id with
        | none => none
        | some _ =>
            some { s with backend := s.backend.erase id, links := Function.update s.links id none }
      else some s

/-! ## Runs -/

/-- A step of a run; there is none any more once a deleted link was used. -/
def tick (cfg : ServerConfig σ) (o : Option (NetServer σ)) (l : LoopStep) : Option (NetServer σ) :=
  o.bind (step cfg · l)

/-- The environment can take the step. -/
def Possible (o : Option (NetServer σ)) (l : LoopStep) : Prop := ∀ s ∈ o, s.Enabled l

end NetServer

end Ssdb
