/-
# When the queue of a slave converges

A slave that has caught up has the items of the queue of the master (`queue_convergence`), in every run
whose steps fit together for this queue (`QueueWatch.Regular`).  `sync` and `copy` do not see to that:
an entry of a removal is compared by the name of the queue with the keys that are copied, an item that
was pushed and taken again is not sent while its removal is, and an item is replaced under the number
that it has on the master.
-/
import DoudizhuBackend.GuardedRun
import DoudizhuBackend.Ssdb.QueueShipping
import DoudizhuBackend.Ssdb.ReplicaConvergence

namespace Ssdb

/-- The entry that is to be sent. -/
def ClientPoint.log : ClientPoint → Option Binlog
  | .send log => some log
  | _ => none

namespace QueueWatch

/-- The steps that fit together for the queue `name`; the binlog is not cleared, the connection is not
lost, and the counters have 64 bits. -/
def Regular (name : Bytes) (x : QueueWatch) : ReplicationStep → Prop
  | .write op =>
      op.ShortQueue ∧
        x.world.master.lastSeq + logCount (op.writes x.world.master.db .sync) < 2 ^ 64 - 1
  | .clearBinlog | .disconnect => False
  | .syncTurn =>
      ∀ c ∈ x.world.client, c.point = .sync → ∀ log ∈ c.findLog x.world.master.db,
        c.Finds 0 log ∧ (c.status = .copy → c.lastKey < log.key → x.Passes name c log)
  | .sendLog => ∀ c ∈ x.world.client, ∀ log ∈ c.point.log, x.Ships name c log
  | .copyTurn =>
      x.world.master.db.entries.length < 2 ^ 64 ∧
        ∀ c ∈ x.world.client, c.point = .copy → x.Copies name c
  | .deliver => ∀ m ∈ x.world.link.head?, x.world.slave.CanRead x.past name m
  | .connect | .copyBreak | .idleTurn _ => True

/-- A slave that has not connected yet. -/
structure Waits (x : QueueWatch) (name : Bytes) : Prop where
  client : x.world.client = none
  link : x.world.link = []
  seq : x.world.slave.lastSeq = 0
  key : x.world.slave.lastKey = []
  queue : ∃ front, x.world.slave.db.IsQueue name front []

/-- A slave that is served by the thread of the master. -/
structure Serves (x : QueueWatch) (base : ℕ) (name : Bytes) (c : Client) : Prop where
  client : x.world.client = some c
  tracks : x.Tracks base name c
  seqs : ∀ m ∈ x.world.link, m.log.seq ≤ x.world.master.lastSeq
  reads : x.world.slave.Reads (Slave.CanRead x.past name) (fun _ => True) (c.Mirrors x name) x.world.link

/-- What every step keeps. -/
def Sound (name : Bytes) (x : QueueWatch) : Prop :=
  ∃ base, x.Recorded name base ∧ (x.Waits name ∨ ∃ c, x.Serves base name c)

variable {x x' : QueueWatch} {base : ℕ} {name : Bytes} {c : Client}

theorem canRead_of_grows (h : x.Grows x') {m : Message} (hm : m.log.seq ≤ x.world.master.lastSeq) {s : Slave}
    (hs : s.CanRead x'.past name m) : s.CanRead x.past name m := by
  unfold Slave.CanRead at hs ⊢
  rwa [h.past _ hm] at hs

/-- The master goes on alone. -/
theorem Serves.grows (hc : x.Serves base name c) (h : x.Grows x') (hclient : x'.world.client = x.world.client)
    (hlink : x'.world.link = x.world.link) (hslave : x'.world.slave = x.world.slave) :
    x'.Serves base name c where
  client := hclient.trans hc.client
  tracks := hc.tracks.grows h
  seqs := by
    rw [hlink]
    exact fun m hm => (hc.seqs m hm).trans h.last_le
  reads := by
    rw [hlink, hslave]
    exact hc.reads.mono (fun s m hm hs => canRead_of_grows h (hc.seqs m hm) hs) (fun _ hs => hs)
      fun s _ hs => hs.grows hc.tracks h

/-- The steps after which the master is as before. -/
theorem grows_of_master {l : ReplicationStep} (h : (x.step l).world.master = x.world.master) :
    x.Grows (x.step l) where
  last_le := by rw [h]
  past := fun n hn => if_pos hn
  logs := fun n _ => by rw [h]

/-- The versions are the same when the master has not changed. -/
theorem Recorded.of_master (hx : x.Recorded name base) {l : ReplicationStep}
    (h : (x.step l).world.master = x.world.master) : (x.step l).Recorded name base := by
  have hpast : ∀ n ≤ x.world.master.lastSeq, (x.step l).past n = x.past n := fun n hn => if_pos hn
  have hlater : ∀ n, ¬ n ≤ x.world.master.lastSeq → (x.step l).past n = x.world.master.db := by
    intro n hn
    have heq : (x.step l).past n = (x.step l).world.master.db := if_neg hn
    rw [heq, h]
  constructor
  case base_le => rw [h]; exact hx.base_le
  case bound => rw [h]; exact hx.bound
  case logs => rw [h]; exact hx.logs
  case stored => rw [h]; exact hx.stored
  case items => rw [h]; exact hx.items
  case now => rw [h, hpast _ le_rfl]; exact hx.now
  case queues =>
    intro n hn
    by_cases hle : n ≤ x.world.master.lastSeq
    · rw [hpast n hle]
      exact hx.queues n hn
    · rw [hlater n hle]
      exact hx.stored.store.queues name
  case entry =>
    intro n hn hlt
    rw [h] at hlt ⊢
    rw [hpast n hlt.le, hpast (n + 1) hlt]
    exact hx.entry n hn hlt
  case last => rw [h]; exact hx.last

/-! ## Steps -/

/-- **A turn of the thread.** -/
theorem Serves.send (hc : x.Serves base name c) {r : Client × List Message} (hr : c.Turned x base name r)
    {l : ReplicationStep} (hstep : x.world.step l = x.world.send r) : (x.step l).Serves base name r.1 := by
  have hworld : (x.step l).world = x.world.send r := hstep
  have hgrows : x.Grows (x.step l) := grows_of_master (by rw [hworld]; rfl)
  constructor
  case client =>
    rw [hworld]
    rfl
  case tracks => exact hr.tracks.grows hgrows
  case seqs =>
    rw [hworld]
    intro m hm
    rcases List.mem_append.mp hm with hm | hm
    · exact hc.seqs m hm
    · exact hr.seqs m hm
  case reads =>
    rw [hworld]
    show Slave.Reads _ _ _ x.world.slave (x.world.link ++ r.2)
    refine Slave.Reads.append (fun s m hm hs => canRead_of_grows hgrows (hc.seqs m hm) hs) (fun _ hs => hs)
      (fun s _ hs => ?_) hc.reads
    exact (hr.reads s hs).mono (fun s m hm hs => canRead_of_grows hgrows (hr.seqs m hm) hs) (fun _ hs => hs)
      fun s _ hs => hs.grows hr.tracks hgrows

/-- **A turn of the thread.** -/
theorem Serves.turn (hx : x.Recorded name base) (hc : x.Serves base name c) {l : ReplicationStep}
    (hreg : x.Regular name l) (hl : l.IsTurn) : ∃ c, (x.step l).Serves base name c := by
  rcases x.world.step_turn hl with ⟨hsame, -⟩ | ⟨c', r, hclient, hturn, hstep⟩
  · have hworld : (x.step l).world = x.world := hsame
    have hgrows : x.Grows (x.step l) := grows_of_master (by rw [hworld])
    exact ⟨c, hc.grows hgrows (by rw [hworld]) (by rw [hworld]) (by rw [hworld])⟩
  · obtain rfl : c = c' := Option.some.inj (hc.client.symm.trans hclient)
    refine ⟨r.1, hc.send ?_ hstep⟩
    cases hturn with
    | syncTurn hpoint => exact Client.turned_syncTurn hx hc.tracks hpoint (hreg c hclient hpoint)
    | sendLog hpoint =>
        exact Client.turned_sendLog hx hc.tracks hpoint (hreg c hclient _ (by rw [hpoint]; rfl))
    | copyTurn hpoint =>
        exact Client.turned_copyTurn hx hc.tracks hpoint hreg.1 (hreg.2 c hclient hpoint)
    | copyBreak hpoint => exact Client.turned_copyBreak hc.tracks hpoint
    | idleTurn hpoint silent => exact Client.turned_idleTurn hc.tracks hpoint silent

/-- **A slave connects** for the first time. -/
theorem Waits.connect (base : ℕ) (h : x.Waits name) :
    ∃ c, (x.step .connect).Serves base name c := by
  have hinit : Client.init x.world.master x.world.slave.lastSeq x.world.slave.lastKey x.world.slave.isMirror =
      Client.reset ⟨.init, 0, 0, [], x.world.slave.isMirror, none, .sync⟩ := by
    rw [h.seq, h.key]
    rfl
  -- the sync140 request is the only message on the new link
  have hworld : (x.step .connect).world = { x.world with link := [] }.send
      (Client.reset ⟨.init, 0, 0, [], x.world.slave.isMirror, none, .sync⟩) := by
    show (if x.world.client.isNone then x.world.connect else x.world) = _
    rw [h.client, Option.isNone_none, if_pos rfl, Replication.connect, hinit]
  have hgrows : x.Grows (x.step .connect) := grows_of_master (by rw [hworld]; rfl)
  obtain ⟨front, hq⟩ := h.queue
  refine ⟨(Client.reset ⟨.init, 0, 0, [], x.world.slave.isMirror, none, .sync⟩).1, ?_⟩
  constructor
  case client => rw [hworld]; rfl
  case tracks =>
    have htracks : x.Tracks base name
        -- a new client has sent nothing, so most of what it must track is empty
        (Client.reset ⟨.init, 0, 0, [], x.world.slave.isMirror, none, .sync⟩).1 := by
      constructor
      case status => exact Or.inl rfl
      case seq_le => exact Nat.zero_le _
      case copying => exact fun h => by cases h
      case begun =>
        rintro (hstart | hpoint)
        · exact absurd ⟨rfl, rfl⟩ hstart
        · cases hpoint
      case atStart => exact fun _ => ⟨rfl, fun log h => by cases h⟩
      case sends => exact fun log h => by cases h
      case iter => exact fun es hes => by cases hes
    exact htracks.grows hgrows
  case seqs =>
    rw [hworld]
    intro m hm
    rw [List.mem_singleton.mp hm]
    exact Nat.zero_le _
  case reads =>
    rw [hworld]
    refine .one trivial fun _ => ⟨trivial, front, [], Slave.proc_other hq rfl, ?_⟩
    have hnil : ((x.step .connect).history name).Mirrors 0 (fun _ => false) [] := by
      rw [QueueHistory.Mirrors, List.filter_false]
      exact .nil
    have hcopied : Client.copied name
        (Client.reset ⟨.init, 0, 0, [], x.world.slave.isMirror, none, .sync⟩).1 = fun _ => false := by
      funext n
      exact Bool.eq_false_iff.mpr (Client.not_copied_of_atStart ⟨rfl, rfl⟩ n)
    rw [hcopied]
    exact hnil

/-- **One step.** -/
theorem Sound.step (h : x.Sound name) {l : ReplicationStep} (hreg : x.Regular name l) :
    (x.step l).Sound name := by
  obtain ⟨base, hx, hrun⟩ := h
  by_cases hl : l.IsTurn
  · have hmaster : (x.step l).world.master = x.world.master := by
      rcases x.world.step_turn hl with ⟨hsame, -⟩ | ⟨c, r, -, -, hstep⟩
      · exact congrArg Replication.master hsame
      · have hworld : (x.step l).world = x.world.send r := hstep
        rw [hworld]
        rfl
    refine ⟨base, hx.of_master hmaster, ?_⟩
    rcases hrun with hwaits | ⟨c, hc⟩
    · -- there is no thread
      have hworld : (x.step l).world = x.world := by
        rcases x.world.step_turn hl with ⟨hsame, -⟩ | ⟨c, r, hclient, -, -⟩
        · exact hsame
        · rw [hwaits.client] at hclient
          cases hclient
      left
      obtain ⟨hclient, hlink, hseq, hkey, hqueue⟩ := hwaits
      rw [← hworld] at hclient hlink hseq hkey hqueue
      exact ⟨hclient, hlink, hseq, hkey, hqueue⟩
    · exact Or.inr (hc.turn hx hreg hl)
  cases l with
  | write op =>
      have hx' := hx.write hreg.1 hreg.2
      have hgrows : x.Grows (x.step (.write op)) := by
        have hdata := op.isData x.world.master.db .sync
        have hbound := hreg.2
        have hmaster : (x.step (.write op)).world.master =
            x.world.master.transaction (op.writes x.world.master.db .sync) true := rfl
        rw [BinlogQueue.transaction_true _ (by omega)] at hmaster
        refine ⟨by rw [hmaster]; exact Nat.le_add_right _ _, fun n hn => if_pos hn, fun n hn => ?_⟩
        rw [hmaster]
        show (Db.writeBatch _ _).get _ = _
        rw [get_writeBatch_log hdata (by omega) (by omega), List.find?_eq_none.mpr, Option.map_none,
          Option.none_or]
        intro l hl
        have := (seq_of_mem_logsOf hl).1
        simp only [decide_eq_true_eq]
        omega
      refine ⟨base, hx', ?_⟩
      rcases hrun with ⟨hclient, hlink, hseq, hkey, hqueue⟩ | ⟨c, hc⟩
      · exact Or.inl ⟨hclient, hlink, hseq, hkey, hqueue⟩
      · exact Or.inr ⟨c, hc.grows hgrows rfl rfl rfl⟩
  | clearBinlog => exact hreg.elim
  | disconnect => exact hreg.elim
  | connect =>
      rcases hrun with hwaits | ⟨c, hc⟩
      · obtain ⟨c, hc⟩ := hwaits.connect base
        have hmaster : (x.step .connect).world.master = x.world.master := by
          show (if x.world.client.isNone then x.world.connect else x.world).master = _
          split <;> rfl
        exact ⟨base, hx.of_master hmaster, Or.inr ⟨c, hc⟩⟩
      · have hworld : (x.step .connect).world = x.world := by
          show (if x.world.client.isNone then x.world.connect else x.world) = _
          rw [hc.client, Option.isNone_some, if_neg (by decide)]
        refine ⟨base, hx.of_master (by rw [hworld]), Or.inr ⟨c, ?_⟩⟩
        exact hc.grows (grows_of_master (by rw [hworld])) (by rw [hworld]) (by rw [hworld]) (by rw [hworld])
  | deliver =>
      cases hlink : x.world.link with
      | nil =>
          have hworld : (x.step .deliver).world = x.world := by
            show x.world.step .deliver = _
            simp only [Replication.step, hlink]
          refine ⟨base, hx.of_master (by rw [hworld]), ?_⟩
          rcases hrun with ⟨hclient, -, hseq, hkey, hqueue⟩ | ⟨c, hc⟩
          · rw [← hworld] at hclient hlink hseq hkey hqueue
            exact Or.inl ⟨hclient, hlink, hseq, hkey, hqueue⟩
          · refine Or.inr ⟨c, ?_⟩
            exact hc.grows (grows_of_master (by rw [hworld])) (by rw [hworld]) (by rw [hworld]) (by rw [hworld])
      | cons m ms =>
          have hworld : (x.step .deliver).world =
              { x.world with link := ms, slave := x.world.slave.proc m } := by
            show x.world.step .deliver = _
            simp only [Replication.step, hlink]
          have hgrows : x.Grows (x.step .deliver) := grows_of_master (by rw [hworld])
          refine ⟨base, hx.of_master (by rw [hworld]), ?_⟩
          rcases hrun with hwaits | ⟨c, hc⟩
          · rw [hwaits.link] at hlink
            cases hlink
          · have hcan := hreg m (by rw [hlink]; rfl)
            have hreads := hc.reads
            have hseqs := hc.seqs
            rw [hlink] at hreads hseqs
            refine Or.inr ⟨c, ?_⟩
            constructor
            case client => rw [hworld]; exact hc.client
            case tracks => exact hc.tracks.grows hgrows
            case seqs =>
              rw [hworld]
              exact fun m' hm' => hseqs m' (List.mem_cons_of_mem _ hm')
            case reads =>
              rw [hworld]
              refine (hreads.2 hcan).mono (fun s m' hm' hs => ?_) (fun _ hs => hs)
                fun s _ hs => hs.grows hc.tracks hgrows
              exact canRead_of_grows hgrows (hseqs m' (List.mem_cons_of_mem _ hm')) hs
  | _ => exact absurd trivial hl

/-! ## Convergence -/

/-- A slave that has caught up. -/
theorem Sound.queueItems_eq (h : x.Sound name) (hcaught : x.world.CaughtUp) :
    queueItems x.world.slave.db name = queueItems x.world.master.db name := by
  obtain ⟨base, hx, hrun⟩ := h
  obtain ⟨c, hclient, hsync, hseq, hpoint, hlink⟩ := hcaught
  rcases hrun with hwaits | ⟨c', hc⟩
  · rw [hwaits.client] at hclient
    cases hclient
  · obtain rfl : c = c' := Option.some.inj (hclient.symm.trans hc.client)
    have hreads := hc.reads
    rw [hlink] at hreads
    obtain ⟨-, front, items, hq, hitems⟩ := hreads
    rw [Client.version_of_ne_send hpoint, hseq] at hitems
    obtain ⟨first, past, hpast⟩ := hx.queues _ hx.base_le
    have hlast : (x.history name).past (x.history name).last = numbered x.world.master.db name := hx.now
    have heq := hitems.eq_items (Client.copied_of_sync hsync) fun n hn => ?_
    · rw [hq.queueItems_eq, heq, hlast, queueItems_eq_filterMap]
    · have hfrom : (x.history name).past (x.history name).last = numberedFrom first past := hpast.numbered_eq
      rw [hfrom] at hn ⊢
      exact numberedFrom_item_ne_none hn

/-- Watching changes nothing. -/
theorem world_foldl (steps : List ReplicationStep) :
    ∀ x : QueueWatch, (steps.foldl QueueWatch.step x).world = steps.foldl Replication.step x.world := by
  induction steps with
  | nil => exact fun x => rfl
  | cons l steps ih => exact fun x => ih (x.step l)

/-- The moment before the first step. -/
def start (w : Replication) : QueueWatch := ⟨w, fun _ => w.master.db⟩

theorem sound_start {w : Replication} (hw : w.Starts) (hitems : w.master.db.Keys IsItemKey)
    (hlast : w.master.lastSeq = 0 ∨ ∃ l, w.master.db.get (encodeSeqKey w.master.lastSeq) = some (.log l))
    (name : Bytes) : (start w).Sound name := by
  obtain ⟨steps, hget⟩ := hw.master
  have hstored : w.master.db.Stored := (Db.Stored.run steps).congr hget
  obtain ⟨hdb, hseq, hkey⟩ := hw.slave
  refine ⟨w.master.lastSeq, ?_, Or.inl ⟨hw.client, hw.link, hseq, hkey, 0, ?_⟩⟩
  · constructor
    case base_le => exact le_rfl
    case bound => exact hw.bound
    case logs => exact hw.logs
    case stored => exact hstored
    case items => exact hitems
    case now => rfl
    case queues => exact fun n _ => hstored.store.queues name
    case entry => exact fun n hn hlt => absurd hlt (not_lt.mpr hn)
    case last => exact hlast
  · show w.slave.db.IsQueue name 0 []
    rw [hdb]
    exact Db.isQueue_empty name 0

end QueueWatch

/-- **Convergence of a queue.**  In every run whose steps fit together for the queue, a slave that has
caught up has its items in their order, whatever is written to other queues, hashes and sorted sets. -/
theorem queue_convergence {w : Replication} (hw : w.Starts) (hitems : w.master.db.Keys IsItemKey)
    (hlast : w.master.lastSeq = 0 ∨ ∃ l, w.master.db.get (encodeSeqKey w.master.lastSeq) = some (.log l))
    {name : Bytes} {steps : List ReplicationStep}
    (h : Guarded QueueWatch.step (QueueWatch.Regular name) (QueueWatch.start w) steps)
    (hcaught : (steps.foldl Replication.step w).CaughtUp) :
    queueItems (steps.foldl Replication.step w).slave.db name =
      queueItems (steps.foldl Replication.step w).master.db name := by
  have hsound := h.invariant (I := QueueWatch.Sound name) (fun x l hx hl => hx.step hl)
    (QueueWatch.sound_start hw hitems hlast name)
  have hworld := QueueWatch.world_foldl steps (QueueWatch.start w)
  have heq := hsound.queueItems_eq (by rw [hworld]; exact hcaught)
  rw [hworld] at heq
  exact heq

/-! ## A run -/

section Decidable

variable (x : QueueWatch) (name : Bytes) (c : Client) (log : Binlog)

instance : Decidable (x.Passes name c log) :=
  show Decidable (match queueEntry name log with
      | .pop _ => x.copiedNumbers name c log.seq = x.copiedNumbers name c (log.seq - 1)
      | _ => True) from
    match queueEntry name log with
    | .pop _ => inferInstanceAs (Decidable (_ = _))
    | .push .. | .set _ | .other => inferInstanceAs (Decidable True)

instance : Decidable (x.Ships name c log) :=
  show Decidable (match queueEntry name log with
      | .push _ _ => (x.world.master.db.get log.key).isSome
      | .pop e => x.copiedNumbers name c log.seq = e.rest (x.copiedNumbers name c (log.seq - 1))
      | _ => True) from
    match queueEntry name log with
    | .push .. => inferInstanceAs (Decidable (_ = true))
    | .pop _ => inferInstanceAs (Decidable (_ = _))
    | .set _ | .other => inferInstanceAs (Decidable True)

instance : Decidable (x.Copies name c) :=
  show Decidable (match c.entries x.world.master.db with
      | (t :: rest, _) :: _ =>
          if signedChar DataType.MAX_PREFIX < signedChar t then
            x.copiedNumbers name c c.lastSeq = queueNumbers (x.past c.lastSeq) name
          else
            x.copiedNumbers name { c with lastKey := t :: rest } c.lastSeq =
              x.copiedNumbers name c c.lastSeq ++
                (if t = DataType.QUEUE then itemNumber name (t :: rest) else none).toList
      | ([], _) :: _ => True
      | [] => x.copiedNumbers name c c.lastSeq = queueNumbers (x.past c.lastSeq) name) from
    match c.entries x.world.master.db with
    | (_ :: _, _) :: _ => inferInstanceAs (Decidable (ite _ _ _))
    | ([], _) :: _ => inferInstanceAs (Decidable True)
    | [] => inferInstanceAs (Decidable (_ = _))

instance (past : ℕ → Db) (s : Slave) (m : Message) : Decidable (s.CanRead past name m) :=
  show Decidable (match queueEntry name m.log with
      | .push .front _ => 0 < room s.db name .front
      | .push .back _ => 0 < room s.db name .back
      | .set _ => qgetUint64 s.db name qfrontSeq = qgetUint64 (past m.log.seq) name qfrontSeq
      | _ => True) from
    match queueEntry name m.log with
    | .push .front _ | .push .back _ => inferInstanceAs (Decidable (_ < _))
    | .set _ => inferInstanceAs (Decidable (_ = _))
    | .pop _ | .other => inferInstanceAs (Decidable True)

instance : DecidablePred (x.Regular name)
  | .write _ => inferInstanceAs (Decidable (_ ∧ _))
  | .clearBinlog | .disconnect => inferInstanceAs (Decidable False)
  | .syncTurn => inferInstanceAs (Decidable (∀ c ∈ _, _ → ∀ log ∈ _, _ ∧ (_ → _ → _)))
  | .sendLog => inferInstanceAs (Decidable (∀ c ∈ _, ∀ log ∈ _, _))
  | .copyTurn => inferInstanceAs (Decidable (_ ∧ ∀ c ∈ _, _ → _))
  | .deliver => inferInstanceAs (Decidable (∀ m ∈ _, _))
  | .connect | .copyBreak | .idleTurn _ => inferInstanceAs (Decidable True)

end Decidable

/-- A master with a queue of two items and an empty binlog, and a slave that holds nothing. -/
def twoItems (name : Bytes) : Replication where
  master := .openDb
    ([.write (.qpush name (ascii "a") .back) .sync,
      .write (.qpush name (ascii "b") .back) .sync].foldl Db.step OrderedMap.empty) ⟨30, by decide⟩
  client := none
  link := []
  slave := ⟨OrderedMap.empty, 0, [], false⟩
  signalled := false

theorem twoItems_starts : (twoItems (ascii "q")).Starts where
  master := ⟨_, fun _ _ => rfl⟩
  logs := by
    intro k v hget hhead
    have hmem := OrderedMap.mem_entries_iff.mpr hget
    have hnone : ∀ p ∈ (twoItems (ascii "q")).master.db.entries,
        p.1.head? ≠ some DataType.SYNCLOG := by decide +kernel
    exact absurd hhead (hnone _ hmem)
  bound := by decide +kernel
  client := rfl
  link := rfl
  slave := ⟨rfl, rfl, rfl⟩

/-- One item is copied and replaced before the other one is copied; then one is pushed and one is
taken. -/
def queueRun : List ReplicationStep :=
  [.connect, .syncTurn, .copyTurn, .copyTurn, .copyTurn, .copyBreak, .idleTurn true,
    .write (.qset (ascii "q") 0 (ascii "x")), .syncTurn, .sendLog, .copyTurn, .copyTurn,
    .write (.qpush (ascii "q") (ascii "c") .back), .write (.qpop (ascii "q") .front),
    .idleTurn true, .syncTurn, .sendLog, .idleTurn true, .syncTurn, .sendLog,
    .deliver, .deliver, .deliver, .deliver, .deliver, .deliver, .deliver, .deliver, .deliver]

/-- The slave has the items of the master in that run. -/
theorem queue_convergence_queueRun :
    queueItems (queueRun.foldl Replication.step (twoItems (ascii "q"))).slave.db (ascii "q") =
      queueItems (queueRun.foldl Replication.step (twoItems (ascii "q"))).master.db (ascii "q") := by
  have hitems : (twoItems (ascii "q")).master.db.Keys IsItemKey := by
    have hname : IsShort (ascii "q") := by decide
    have hpush : ∀ db : Db, db.Keys IsItemKey → ∀ item,
        Db.Keys IsItemKey (db.apply ((Operation.qpush (ascii "q") item .back).writes db .sync)) := by
      intro db hdb item
      have hshort : (Operation.qpush (ascii "q") item .back).ShortQueue := hname
      exact items_write hdb hshort .sync
    exact hpush _ (hpush _ Db.Keys.empty (ascii "a")) (ascii "b")
  exact queue_convergence twoItems_starts hitems (Or.inl (by decide +kernel)) (by decide +kernel)
    (by decide +kernel)

/-- **An item too many.**  The first item of a queue is copied and then taken; the name of the queue is
behind the key of the item, so that the entry is passed over.  The slave has caught up, and has both. -/
theorem queue_diverges :
    let w := ([.connect, .syncTurn, .copyTurn, .copyTurn, .copyTurn, .copyBreak, .idleTurn true,
      .write (.qpop (ascii "z") .front), .syncTurn, .syncTurn, .copyTurn, .copyTurn, .deliver, .deliver,
      .deliver, .deliver, .deliver, .deliver] : List ReplicationStep).foldl Replication.step
        (twoItems (ascii "z"))
    w.CaughtUp ∧ queueItems w.slave.db (ascii "z") = [ascii "a", ascii "b"] ∧
      queueItems w.master.db (ascii "z") = [ascii "b"] := by
  decide +kernel

end Ssdb
