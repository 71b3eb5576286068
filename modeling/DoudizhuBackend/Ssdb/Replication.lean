/-
# A master and its slave

`ssdb-master/src/backend_sync.cpp` (the thread of the master that serves one slave) and
`ssdb-master/src/slave.cpp` (the thread of the slave).  The slave connects with the number of the last
entry that it has seen and the last key that it has copied.  The master then sends the records of its
database in the order of their keys (`copy`) and the entries of its binlog (`sync`), both on one
connection, and the slave carries out what it receives.

`Replication` is the state of both with what is on its way between them.  The threads of the master
take no common lock, so that a step is one turn of a loop of `copy` or `sync`: between any two of them
other threads may write to the database or clear the binlog, and the connection may be lost.
-/
import DoudizhuBackend.Ssdb.Operations

namespace Ssdb

namespace DataType

/-- The first data type that is copied. -/
def MIN_PREFIX : Byte := HASH
/-- The last data type that is copied. -/
def MAX_PREFIX : Byte := ZSET

end DataType

/-- A byte as the `char` that the code compares. -/
def signedChar (b : Byte) : ℤ := if b.val < 128 then b.val else b.val - 256

/-- What is sent: an entry and the value or remark behind it. -/
structure Message where
  log : Binlog
  val : Option Bytes
  deriving DecidableEq

/-! ## The thread of the master -/

/-- `BackendSync::Client::status`. -/
inductive ClientStatus where
  | init | outOfSync | copy | sync
  deriving DecidableEq

/-- Where the thread stands: in the loop of `sync`, behind it with the entry that it found, in the loop
of `copy`, or behind both. -/
inductive ClientPoint where
  | sync
  | send (log : Binlog)
  | copy
  | idle
  deriving DecidableEq

/-- `BackendSync::Client`; an iterator is what it has still to return. -/
structure Client where
  status : ClientStatus
  lastSeq : ℕ
  lastNoopSeq : ℕ
  lastKey : Bytes
  isMirror : Bool
  iter : Option (List (Bytes × Value))
  point : ClientPoint

namespace Client

/-- `out_of_sync`; the loop of the thread then does nothing any more but `noop`. -/
def outOfSync (c : Client) : Client × List Message :=
  ({ c with status := .outOfSync, point := .idle },
    [⟨⟨c.lastSeq, .ctrl, .none, ascii "OUT_OF_SYNC"⟩, none⟩])

/-- `reset`: a copy begins from the front. -/
def reset (c : Client) : Client × List Message :=
  ({ c with status := .copy, lastSeq := 0, lastKey := [] },
    [⟨⟨0, .copy, .beginCopy, []⟩, some (ascii "copy_begin")⟩])

/-- The message at the end of a copy. -/
def copyEndMessage (c : Client) : Message :=
  ⟨⟨c.lastSeq, .copy, .endCopy, []⟩, some (ascii "copy_end")⟩

/-- The constructor and `init`, for what the slave has sent. -/
def init (q : BinlogQueue) (lastSeq : ℕ) (lastKey : Bytes) (isMirror : Bool) : Client × List Message :=
  let c : Client := ⟨.init, lastSeq, 0, lastKey, isMirror, none, .sync⟩
  if lastSeq ≠ 0 ∧ (q.lastSeq < lastSeq ∨ lastSeq < q.minSeq) then c.outOfSync
  else if lastKey = [] ∧ lastSeq ≠ 0 then ({ c with status := .sync }, [c.copyEndMessage])
  else if lastKey = [] ∧ lastSeq = 0 then c.reset
  else ({ c with status := .copy }, [])

/-- `noop`; in a copy that has not begun it does not tell a number. -/
def noop (c : Client) : Client × List Message :=
  if c.status = .copy ∧ c.lastKey = [] then
    (c, [⟨⟨0, .noop, .none, []⟩, some (ascii "noop")⟩])
  else
    ({ c with lastNoopSeq := c.lastSeq }, [⟨⟨c.lastSeq, .noop, .none, []⟩, some (ascii "noop")⟩])

/-- Where the thread goes on when `sync` returns. -/
def behindSync (c : Client) : ClientPoint := if c.status = .copy then .copy else .idle

/-- The entry that `sync` looks at. -/
def findLog (db : Db) (c : Client) : Option Binlog :=
  if c.status = .copy ∧ c.lastSeq = 0 then BinlogQueue.findLast db
  else BinlogQueue.findNext db ((c.lastSeq + 1) % 2 ^ 64)

/-- One turn of the loop of `sync`. -/
def syncTurn (db : Db) (c : Client) : Client × List Message :=
  match c.findLog db with
  | none => ({ c with point := c.behindSync }, [])
  | some log =>
      -- behind the last key copied: to be seen by a new iterator
      if c.status = .copy ∧ c.lastKey < log.key then
        ({ c with lastSeq := log.seq, iter := none }, [])
      else if c.lastSeq ≠ 0 ∧ log.seq ≠ (c.lastSeq + 1) % 2 ^ 64 then c.outOfSync
      else
        let c := { c with lastSeq := log.seq }
        if log.type = .mirror ∧ c.isMirror then
          -- a mirror has the entries that come from it
          if 1000 ≤ c.lastSeq - c.lastNoopSeq then { c with point := c.behindSync }.noop else (c, [])
        else ({ c with point := .send log }, [])

/-- The rest of `sync`: an entry is sent with the value that its key has by now. -/
def sendLog (db : Db) (log : Binlog) (c : Client) : Client × List Message :=
  let c := { c with point := c.behindSync }
  match log.cmd with
  | .kset | .hset | .zset | .qset | .qpushBack | .qpushFront =>
      match db.get log.key with
      | none => (c, [])
      | some val => (c, [⟨log, some val.image⟩])
  | .kdel | .hdel | .zdel | .qpopBack | .qpopFront => (c, [⟨log, none⟩])
  | _ => (c, [])

/-- The command that sends a record. -/
def copyCommand (dataType : Byte) : Option BinlogCommand :=
  if dataType = DataType.KV then some .kset
  else if dataType = DataType.HASH then some .hset
  else if dataType = DataType.ZSET then some .zset
  else if dataType = DataType.QUEUE then some .qpushBack
  else none

/-- The end of a copy. -/
def copyEnd (c : Client) : Client × List Message :=
  ({ c with status := .sync, iter := none, point := .idle }, [c.copyEndMessage])

/-- The iterator of `copy`, a new one where there is none. -/
def entries (db : Db) (c : Client) : List (Bytes × Value) :=
  c.iter.getD
    (iterator db (if c.lastKey = [] then [DataType.MIN_PREFIX] else c.lastKey) [] (2 ^ 64 - 1))

/-- One turn of the loop of `copy`. -/
def copyTurn (db : Db) (c : Client) : Client × List Message :=
  match c.entries db with
  | [] => c.copyEnd
  | ([], _) :: es => ({ c with iter := some es }, [])
  | (dataType :: key, val) :: es =>
      if signedChar DataType.MAX_PREFIX < signedChar dataType then c.copyEnd
      else
        let c := { c with iter := some es, lastKey := dataType :: key }
        match copyCommand dataType with
        | none => (c, [])
        | some cmd => (c, [⟨⟨c.lastSeq, .copy, cmd, c.lastKey⟩, some val.image⟩])

/-- What the thread does when there is nothing to send, and the start of its next turn. -/
def idleTurn (silent : Bool) (c : Client) : Client × List Message :=
  let (c, ms) := if silent then (c, []) else c.noop
  ({ c with point := if c.status = .outOfSync then .idle else .sync }, ms)

end Client

/-! ## The thread of the slave -/

/-- `Slave`.  `save_status` keeps the number and the key over a restart. -/
structure Slave where
  db : Db
  lastSeq : ℕ
  lastKey : Bytes
  isMirror : Bool

namespace Slave

/-- `Slave::log_type`. -/
def logType (s : Slave) : BinlogType := if s.isMirror then .mirror else .sync

/-- The calls of an operation that does not fail. -/
def checked (r : ℤ × List Write) : Option (List Write) := if r.1 = -1 then none else some r.2

/-- The operation that `proc_sync` carries out, none for what it cannot read; `none` if it fails. -/
def replay (s : Slave) (m : Message) : Option (List Write) :=
  match m.log.cmd with
  | .kset =>
      match m.val, decodeNameKey m.log.key with
      | some val, some key => checked (Kv.set key val s.logType)
      | _, _ => some []
  | .kdel =>
      match decodeNameKey m.log.key with
      | some key => checked (Kv.del key s.logType)
      | none => some []
  | .hset =>
      match m.val, decodeHashKey m.log.key with
      | some val, some (name, key) => checked (hset s.db name key val s.logType)
      | _, _ => some []
  | .hdel =>
      match decodeHashKey m.log.key with
      | some (name, key) => checked (hdel s.db name key s.logType)
      | none => some []
  | .zset =>
      match m.val, decodeZsetKey m.log.key with
      | some val, some (name, key) => checked (zset s.db name key val s.logType)
      | _, _ => some []
  | .zdel =>
      match decodeZsetKey m.log.key with
      | some (name, key) => checked (zdel s.db name key s.logType)
      | none => some []
  | .qset | .qpushBack | .qpushFront =>
      match m.val, decodeQitemKey m.log.key with
      | some val, some (name, seq) =>
          if seq < qitemMinSeq ∨ qitemMaxSeq < seq then some []
          else if m.log.cmd = .qset then checked (qsetBySeq s.db name seq val s.logType)
          else if m.log.cmd = .qpushBack then checked (qpushBack s.db name val s.logType)
          else checked (qpushFront s.db name val s.logType)
      | _, _ => some []
  | .qpopBack =>
      let (ret, _, ws) := qpopBack s.db m.log.key s.logType
      checked (ret, ws)
  | .qpopFront =>
      let (ret, _, ws) := qpopFront s.db m.log.key s.logType
      checked (ret, ws)
  | _ => some []

/-- `proc_sync`: the number is kept once the entry has been replayed. -/
def procSync (s : Slave) (m : Message) : Slave :=
  match s.replay m with
  | none => s
  | some ws =>
      { s with
        db := s.db.apply ws
        lastSeq := m.log.seq
        lastKey := if m.log.type = .copy then m.log.key else s.lastKey }

/-- `proc_copy`. -/
def procCopy (s : Slave) (m : Message) : Slave :=
  match m.log.cmd with
  | .beginCopy => s
  | .endCopy => { s with lastKey := [] }
  | _ => s.procSync m

/-- `proc`, by the type of the message. -/
def proc (s : Slave) (m : Message) : Slave :=
  match m.log.type with
  | .noop => { s with lastSeq := m.log.seq }
  | .ctrl => s
  | .copy => s.procCopy m
  | .sync => s.procSync m
  | .mirror => s.procSync m

end Slave

/-! ## Both together -/

/-- The master, the thread of the connection if there is one, what it has sent and the slave has not
read, the slave, and whether `OUT_OF_SYNC` has been signalled. -/
structure Replication where
  master : BinlogQueue
  client : Option Client
  link : List Message
  slave : Slave
  signalled : Bool

/-- A write of a client of the master, `clear_binlog`, the slave connecting or losing the connection, a
turn of the thread of the master, `copy` returning to its caller before the end, or the slave reading
a message. -/
inductive ReplicationStep where
  | write (op : Operation)
  | clearBinlog
  | connect
  | disconnect
  | syncTurn
  | sendLog
  | copyTurn
  | copyBreak
  | idleTurn (silent : Bool)
  | deliver

namespace Replication

/-- The thread of the master has gone on. -/
def send (w : Replication) (r : Client × List Message) : Replication :=
  { w with
    client := some r.1
    link := w.link ++ r.2
    signalled := w.signalled || r.1.status = .outOfSync }

/-- A new connection: the old messages are lost, and the master looks at what the slave has. -/
def connect (w : Replication) : Replication :=
  { w with link := [] }.send
    (Client.init w.master w.slave.lastSeq w.slave.lastKey w.slave.isMirror)

/-- A step; one that cannot be taken changes nothing. -/
def step (w : Replication) : ReplicationStep → Replication
  | .write op => { w with master := w.master.transaction (op.writes w.master.db .sync) true }
  | .clearBinlog => { w with master := w.master.flush }
  | .connect => if w.client.isNone then w.connect else w
  | .disconnect => { w with client := none, link := [] }
  | .deliver =>
      match w.link with
      | [] => w
      | m :: ms => { w with link := ms, slave := w.slave.proc m }
  | l =>
      match w.client with
      | none => w
      | some c =>
          match l, c.point with
          | .syncTurn, .sync => w.send (c.syncTurn w.master.db)
          | .sendLog, .send log => w.send (c.sendLog w.master.db log)
          | .copyTurn, .copy => w.send (c.copyTurn w.master.db)
          | .copyBreak, .copy => w.send ({ c with point := .idle }, [])
          | .idleTurn silent, .idle => w.send (c.idleTurn silent)
          | _, _ => w

/-- The thread of the master has shipped the whole binlog and the slave has read all of it. -/
def CaughtUp (w : Replication) : Prop :=
  ∃ c, w.client = some c ∧ c.status = .sync ∧ c.lastSeq = w.master.lastSeq ∧
    (∀ log, c.point ≠ .send log) ∧ w.link = []

end Replication

end Ssdb
