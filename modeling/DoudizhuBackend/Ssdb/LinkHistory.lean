/-
# The life of one link

What happens to one link of the server, whatever the others do: it is accepted, bytes are read from it and
written to it, a request is taken from its input, admitted and answered, and it is closed (`LinkMove`).
A history of moves answers the requests in the order in which they came (`LinkView.Answers`), and carries
out none before the password was given (`LinkView.Guarded`).

That the loop and the workers do nothing else to a link is shown in `Ssdb.RequestOrder`.
-/
import DoudizhuBackend.Ssdb.ServerSteps
import DoudizhuBackend.ChunkedStream
import Mathlib.Logic.Relation

open ChunkedStream

namespace Ssdb

variable {σ : Type} {cfg : ServerConfig σ} {id : ℕ}

/-! ## Moves -/

/-- A link that was not accepted yet, one that exists, and one that was deleted. -/
inductive Standing where
  | fresh
  | live (c : Conn)
  | closed

/-- What the server has to do for a link: nothing before there is more to read; to look for a request; to
check a request, or to carry it out. -/
inductive RequestStage where
  | asleep | awake | asked | admitted
  deriving DecidableEq

/-- A link with all of its requests that were answered. -/
structure LinkView where
  standing : Standing
  stage : RequestStage
  answers : List Answered

/-- What can happen to the link `id`. -/
inductive LinkMove (cfg : ServerConfig σ) (id : ℕ) : LinkView → LinkView → Prop
  | accept (fd : ℕ) {answers : List Answered} :
      LinkMove cfg id ⟨.fresh, .asleep, answers⟩ ⟨.live (.new fd), .asleep, answers⟩
  | flush {c c' : Conn} (h : c.Flushes c') {stage : RequestStage} {answers : List Answered} :
      LinkMove cfg id ⟨.live c, stage, answers⟩ ⟨.live c', stage, answers⟩
  | receive {c c' : Conn} {bytes : Bytes} (h : c.Receives c' bytes) {answers : List Answered} :
      LinkMove cfg id ⟨.live c, .asleep, answers⟩ ⟨.live c', .awake, answers⟩
  | wait {c : Conn} {input : Bytes} (hrecv : cfg.recv c.input = some (input, [])) {answers : List Answered} :
      LinkMove cfg id ⟨.live c, .awake, answers⟩
        ⟨.live { c with input := input, recvData := [] }, .asleep, answers⟩
  | rest {c : Conn} (hinput : c.input = []) {answers : List Answered} :
      LinkMove cfg id ⟨.live c, .awake, answers⟩ ⟨.live c, .asleep, answers⟩
  | ask {c : Conn} {input : Bytes} {req : Packet} (hrecv : cfg.recv c.input = some (input, req))
      (hreq : req ≠ []) {answers : List Answered} :
      LinkMove cfg id ⟨.live c, .awake, answers⟩
        ⟨.live { c with input := input, recvData := req }, .asked, answers⟩
  | allow {c : Conn} (hallowed : NetServer.Allowed cfg c.auth c.recvData) {answers : List Answered} :
      LinkMove cfg id ⟨.live c, .asked, answers⟩ ⟨.live c, .admitted, answers⟩
  | reply {c c' : Conn} {stage : RequestStage} {kind : AnswerKind} {resp : Packet} {answers : List Answered}
      (hstage : stage = .asked ∨ stage = .admitted) (hkind : kind = .ran → stage = .admitted)
      (hinput : c'.input = c.input) (hread : c'.read = c.read)
      (hsent : c'.written ++ c'.output = c.written ++ c.output ++ (cfg.send c.recvData resp).getD [])
      (hauth : c'.auth = true → c.auth = true ∨ kind = .ran ∧ NetServer.Authenticates cfg c.recvData) :
      LinkMove cfg id ⟨.live c, stage, answers⟩
        ⟨.live c', .awake, answers ++ [⟨id, c.recvData, resp, kind⟩]⟩
  | close {c : Conn} {answers : List Answered} :
      LinkMove cfg id ⟨.live c, .awake, answers⟩ ⟨.closed, .asleep, answers⟩

/-- `Link::recv` as a reader: a read appends to the input, and an empty result says that no request is
there. -/
def ServerConfig.reader (cfg : ServerConfig σ) : Reader Bytes Packet Byte where
  poll := fun input => (cfg.recv input).map fun r => (r.1, if r.2 = [] then none else some r.2)
  push := (· ++ ·)
  start := fun input => input

/-- The bytes that are sent for an answer. -/
def ServerConfig.bytesOf (cfg : ServerConfig σ) (a : Answered) : Bytes := (cfg.send a.req a.resp).getD []

/-- The request that waits for its answer. -/
def RequestStage.pending (stage : RequestStage) (c : Conn) : List Packet :=
  if stage = .asked ∨ stage = .admitted then [c.recvData] else []

namespace LinkView

variable {v v' : LinkView}

/-- Every link starts so. -/
def initial : LinkView := ⟨.fresh, .asleep, []⟩

/-! ## The order of the answers -/

/-- The requests that were taken from the bytes read so far are those that were answered, and the one that
waits; what was sent are the answers, one after the other.  A link that sleeps has no request in its
input. -/
structure Answers (cfg : ServerConfig σ) (v : LinkView) : Prop where
  fresh : v.standing = .fresh → v.answers = []
  reads : ∀ c, v.standing = .live c →
    Interleaved cfg.reader [] c.read (v.answers.map Answered.req ++ v.stage.pending c) c.input
  sent : ∀ c, v.standing = .live c → c.written ++ c.output = v.answers.flatMap cfg.bytesOf
  asleep : ∀ c, v.standing = .live c → v.stage = .asleep → c.input = [] ∨
    ∃ input, Interleaved cfg.reader [] c.read (v.answers.map Answered.req) input ∧
      cfg.reader.poll input = some (c.input, none)

/-- A new link has not been answered. -/
theorem answers_initial : (initial).Answers cfg := ⟨fun _ => rfl, nofun, nofun, nofun⟩

/-- A reader that receives nothing waits. -/
theorem reader_poll_none {input rest : Bytes} (hrecv : cfg.recv input = some (rest, [])) :
    cfg.reader.poll input = some (rest, none) := by
  simp [ServerConfig.reader, hrecv]

/-- A move of the link keeps that the answers are those of its requests. -/
theorem Answers.move (h : v.Answers cfg) (hmove : LinkMove cfg id v v') : v'.Answers cfg := by
  cases hmove with
  | accept fd =>
      rename_i answers
      obtain rfl : answers = [] := h.fresh rfl
      refine ⟨nofun, fun c hc => ?_, fun c hc => ?_, fun c hc _ => ?_⟩
      · cases hc
        exact .start
      · cases hc
        rfl
      · cases hc
        exact Or.inl rfl
  | flush hflush =>
      rename_i c c' stage answers
      refine ⟨nofun, fun _ hc => ?_, fun _ hc => ?_, fun _ hc hstage => ?_⟩
      · cases hc
        have hpending : stage.pending c' = stage.pending c := by
          rw [RequestStage.pending, hflush.recvData]
          rfl
        rw [hpending, hflush.read, hflush.input]
        exact h.reads c rfl
      · cases hc
        rw [hflush.sent]
        exact h.sent c rfl
      · cases hc
        rw [hflush.read, hflush.input]
        exact h.asleep c rfl hstage
  | receive hrecv =>
      rename_i c c' bytes answers
      refine ⟨nofun, fun _ hc => ?_, fun _ hc => ?_, nofun⟩
      · cases hc
        rw [hrecv.read, hrecv.input]
        exact (h.reads c rfl).push bytes
      · cases hc
        rw [hrecv.sent]
        exact h.sent c rfl
  | wait hrecv =>
      rename_i c input answers
      -- the reader wants more bytes than there are
      have hreads : Interleaved cfg.reader [] c.read (answers.map Answered.req) c.input := by
        simpa [RequestStage.pending] using h.reads c rfl
      refine ⟨nofun, fun _ hc => ?_, fun _ hc => ?_, fun _ hc _ => ?_⟩
      · cases hc
        exact (h.reads c rfl).wait (reader_poll_none hrecv)
      · cases hc
        exact h.sent c rfl
      · cases hc
        exact Or.inr ⟨c.input, hreads, reader_poll_none hrecv⟩
  | rest hinput =>
      refine ⟨nofun, h.reads, h.sent, fun _ hc _ => ?_⟩
      cases hc
      exact Or.inl hinput
  | ask hrecv hreq =>
      rename_i c input req answers
      refine ⟨nofun, fun _ hc => ?_, fun _ hc => ?_, nofun⟩
      · cases hc
        have hread : Interleaved cfg.reader [] c.read (answers.map Answered.req) c.input := by
          simpa [RequestStage.pending] using h.reads c rfl
        have hpoll : cfg.reader.poll c.input = some (input, some req) := by
          simp [ServerConfig.reader, hrecv, hreq]
        exact hread.item hpoll
      · cases hc
        exact h.sent c rfl
  | allow hallowed => exact ⟨nofun, h.reads, h.sent, nofun⟩
  | reply hstage hkind hinput hread hsent hauth =>
      rename_i c c' stage kind resp answers
      refine ⟨nofun, fun _ hc => ?_, fun _ hc => ?_, nofun⟩
      · cases hc
        have hreads := h.reads c rfl
        rw [hread, hinput, List.map_append]
        simpa [RequestStage.pending, hstage] using hreads
      · cases hc
        rw [hsent, h.sent c rfl, List.flatMap_append]
        simp [ServerConfig.bytesOf]
  | close => exact ⟨nofun, nofun, nofun, nofun⟩

section Streams

variable {Enc : Packet → Bytes → Prop} {Tail : Bytes → Prop} {items : List (Packet × Bytes)} {t : Bytes} {c : Conn}

/-- The bytes that were read are the start of a stream of requests: those that were taken are the first
ones, and the rest does not break the link. -/
theorem Answers.taken (h : v.Answers cfg) (hreader : Decodes Enc Tail cfg.reader (· = ·)) (ht : Tail t)
    (hok : ∀ p ∈ items, Enc p.1 p.2) (hc : v.standing = .live c) {rest : Bytes}
    (hs : c.read ++ rest = items.flatMap Prod.snd ++ t) :
    cfg.recv c.input ≠ none ∧
      ∃ left, items.map Prod.fst = v.answers.map Answered.req ++ v.stage.pending c ++ left := by
  obtain ⟨done, left, s', hitems, hreqs, rfl, hleft⟩ := hreader.interleaved ht hok rfl (h.reads c hc) hs
  constructor
  · intro hnone
    have hpoll : cfg.reader.poll c.input = none := by simp [ServerConfig.reader, hnone]
    have hrest : ∀ p ∈ left, Enc p.1 p.2 := fun p hp => hok p (hitems ▸ List.mem_append_right _ hp)
    rcases hreader.poll_stream ht hrest rfl hleft with ⟨st', hwait, -⟩ | ⟨p, _, _, st', -, hitem, -⟩
    · rw [hpoll] at hwait
      cases hwait
    · rw [hpoll] at hitem
      cases hitem
  · exact ⟨left.map Prod.fst, by rw [hreqs, hitems, List.map_append]⟩

/-- A link that sleeps behind the last byte of the stream has answered all requests. -/
theorem Answers.all (h : v.Answers cfg) (hreader : Decodes Enc Tail cfg.reader (· = ·)) (ht : Tail t)
    (hok : ∀ p ∈ items, Enc p.1 p.2) (hc : v.standing = .live c) (hstage : v.stage = .asleep)
    (hs : c.read = items.flatMap Prod.snd ++ t) : v.answers.map Answered.req = items.map Prod.fst := by
  rcases h.asleep c hc hstage with hnil | ⟨input, hinput, hpoll⟩
  · obtain ⟨done, left, s', hitems, hreqs, rfl, hleft⟩ :=
      hreader.interleaved ht hok rfl (h.reads c hc) ((List.append_nil _).trans hs)
    rw [hnil, List.append_nil] at hleft
    -- no byte is left, so no item is
    obtain rfl : left = [] := by
      cases left with
      | nil => rfl
      | cons p left =>
          have hp : Enc p.1 p.2 := hok p (hitems ▸ List.mem_append_right _ List.mem_cons_self)
          rw [List.flatMap_cons, List.append_assoc] at hleft
          exact absurd (List.append_eq_nil_iff.mp hleft.symm).1 (hreader.enc_ne_nil _ _ hp)
    simpa [RequestStage.pending, hstage, hitems] using hreqs
  · rw [hs] at hinput
    exact hreader.interleaved_all ht hok rfl hinput hpoll

end Streams

/-! ## The password -/

/-- The right password was given on the link. -/
def Authenticated (cfg : ServerConfig σ) (answers : List Answered) : Prop :=
  ∃ a ∈ answers, a.kind = .ran ∧ ∃ name, a.req = [name, cfg.password]

/-- Where a password is needed, it was given on the link before any other command was carried out. -/
structure Guarded (cfg : ServerConfig σ) (v : LinkView) : Prop where
  auth : ∀ c, v.standing = .live c → c.auth = true → cfg.needAuth = true → Authenticated cfg v.answers
  admitted : ∀ c, v.standing = .live c → v.stage = .admitted → NetServer.Allowed cfg c.auth c.recvData
  ran : cfg.needAuth = true → ∀ before a after, v.answers = before ++ a :: after → a.kind = .ran →
    a.req.headD [] ≠ ascii "auth" → Authenticated cfg before

/-- A new link has run nothing. -/
theorem guarded_initial : (initial).Guarded cfg :=
  ⟨nofun, nofun, fun _ before a after h => by simp [initial] at h⟩

/-- Once a password has been accepted, more answers change nothing. -/
theorem Authenticated.append {answers : List Answered} (h : Authenticated cfg answers) (more : List Answered) :
    Authenticated cfg (answers ++ more) := by
  obtain ⟨a, ha, hran⟩ := h
  exact ⟨a, List.mem_append_left _ ha, hran⟩

/-- A move of the link keeps that the password comes first. -/
theorem Guarded.move (h : v.Guarded cfg) (hmove : LinkMove cfg id v v') : v'.Guarded cfg := by
  cases hmove with
  | accept fd => exact ⟨fun c hc hauth => (by cases hc; cases hauth), nofun, h.ran⟩
  | flush hflush =>
      rename_i c c' stage answers
      refine ⟨fun _ hc hauth => ?_, fun _ hc hstage => ?_, h.ran⟩
      · cases hc
        exact h.auth c rfl (hflush.auth ▸ hauth)
      · cases hc
        rw [hflush.auth, hflush.recvData]
        exact h.admitted c rfl hstage
  | receive hrecv =>
      rename_i c c' bytes answers
      exact ⟨fun _ hc hauth => (by cases hc; exact h.auth c rfl (hrecv.auth ▸ hauth)), nofun, h.ran⟩
  | wait hrecv =>
      rename_i c input answers
      exact ⟨fun _ hc hauth => (by cases hc; exact h.auth c rfl hauth), nofun, h.ran⟩
  | rest hinput => exact ⟨h.auth, nofun, h.ran⟩
  | ask hrecv hreq =>
      rename_i c input req answers
      exact ⟨fun _ hc hauth => (by cases hc; exact h.auth c rfl hauth), nofun, h.ran⟩
  | allow hallowed =>
      rename_i c answers
      refine ⟨h.auth, fun _ hc _ => ?_, h.ran⟩
      cases hc
      exact hallowed
  | reply hstage hkind hinput hread hsent hauth =>
      rename_i c c' stage kind resp answers
      refine ⟨fun _ hc hc' hneed => ?_, nofun, ?_⟩
      · cases hc
        -- authenticated before, or by this very request
        rcases hauth hc' with hold | ⟨hran, hright⟩
        · exact (h.auth c rfl hold hneed).append _
        · rcases hright with hoff | ⟨name, hreq⟩
          · rw [hneed] at hoff
            cases hoff
          · exact ⟨_, List.mem_append_right _ (List.mem_singleton.mpr rfl), hran, name, hreq⟩
      · intro hneed before a after heq hran hname
        rcases List.eq_nil_or_concat after with rfl | ⟨after, last, rfl⟩
        · -- the answer that was just added
          obtain ⟨rfl, hlast⟩ := List.append_inj' heq rfl
          obtain rfl := (List.cons.inj hlast).1
          have hallowed := h.admitted c rfl (hkind hran)
          refine h.auth c rfl ?_ hneed
          by_contra hoff
          exact hname (hallowed hneed (by simpa using hoff))
        · rw [List.concat_eq_append, ← List.cons_append, ← List.append_assoc] at heq
          obtain ⟨hanswers, -⟩ := List.append_inj' heq rfl
          exact h.ran hneed before a after hanswers hran hname
  | close => exact ⟨nofun, nofun, h.ran⟩

/-! ## Histories -/

/-- A history of the link `id`. -/
def Reached (cfg : ServerConfig σ) (id : ℕ) (v : LinkView) : Prop :=
  Relation.ReflTransGen (LinkMove cfg id) initial v

/-- Every link that is reached answers its requests. -/
theorem Reached.answers (h : Reached cfg id v) : v.Answers cfg := by
  induction h with
  | refl => exact answers_initial
  | tail _ hmove ih => exact ih.move hmove

/-- Every link that is reached is guarded by the password. -/
theorem Reached.guarded (h : Reached cfg id v) : v.Guarded cfg := by
  induction h with
  | refl => exact guarded_initial
  | tail _ hmove ih => exact ih.move hmove

end LinkView

end Ssdb
