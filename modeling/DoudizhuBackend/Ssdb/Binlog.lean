/-
# The binlog and the numbers of its entries

`ssdb-master/src/ssdb/binlog.h` and `binlog.cpp`.  Every write of the server goes through a
`Transaction` on the `BinlogQueue`: data writes and `add_log` calls gather in one LevelDB batch,
and `commit` writes the batch.  The entries of the binlog lie in the same database, under their
number.  The counter is kept in memory and found again from the last entry when the database is
opened; `clear_binlog` and the cleaning thread remove entries.

A transaction is all or nothing and its entries continue the numbers of the one before
(`binlog_numbering`), unless the database is opened when the last entry is no longer there: the
counter then falls back, and numbers are given a second time.
-/
import DoudizhuBackend.GuardedRun
import DoudizhuBackend.OrderedMap
import DoudizhuBackend.Ssdb.Keys

namespace Ssdb

/-! ## Entries and values -/

/-- `BinlogType`. -/
inductive BinlogType where
  | noop | sync | mirror | copy | ctrl
  deriving DecidableEq

/-- `BinlogCommand`; `beginCopy` and `endCopy` are `BEGIN` and `END`. -/
inductive BinlogCommand where
  | none | kset | kdel | hset | hdel | zset | zdel | beginCopy | endCopy
  | qpushBack | qpushFront | qpopBack | qpopFront | qset
  deriving DecidableEq

/-- `Binlog`: what `repr` packs and `load` unpacks. -/
structure Binlog where
  seq : ℕ
  type : BinlogType
  cmd : BinlogCommand
  key : Bytes
  deriving DecidableEq

/-- What the server stores under a key: the bytes of a client, a number of its own (sizes and queue
pointers, 8 bytes), or an entry of the binlog. -/
inductive Value where
  | bytes (b : Bytes)
  | int (n : ℤ)
  | log (l : Binlog)
  deriving DecidableEq

/-- The byte that stands for the type in an entry. -/
def BinlogType.byte : BinlogType → Byte
  | .noop => 0
  | .sync => 1
  | .mirror => 2
  | .copy => 3
  | .ctrl => 4

/-- The byte that stands for the command in an entry. -/
def BinlogCommand.byte : BinlogCommand → Byte
  | .none => 0
  | .kset => 1
  | .kdel => 2
  | .hset => 3
  | .hdel => 4
  | .zset => 5
  | .zdel => 6
  | .beginCopy => 7
  | .endCopy => 8
  | .qpushBack => 10
  | .qpushFront => 11
  | .qpopBack => 12
  | .qpopFront => 13
  | .qset => 14

/-- The bytes of a value; numbers are little-endian. -/
def Value.image : Value → Bytes
  | .bytes b => b
  | .int n => (bigEndian (n % 2 ^ 64).toNat).reverse
  | .log l => (bigEndian l.seq).reverse ++ l.type.byte :: l.cmd.byte :: l.key

/-- `val.size() == sizeof(uint64_t)`, and then the number. -/
def Value.int64 : Value → Option ℤ
  | .bytes b => if b.length = 8 then some ((ofBigEndian b.reverse : ℤ).bmod (2 ^ 64)) else none
  | .int n => some n
  | .log _ => none

/-- The LevelDB database. -/
abbrev Db := OrderedMap Bytes Value

/-- `leveldb::WriteBatch`: `Put` is a key with a value, `Delete` one without. -/
abbrev WriteBatch := List (Bytes × Option Value)

/-- One operation of a batch. -/
def Db.write (db : Db) : Bytes × Option Value → Db
  | (k, some v) => db.put k v
  | (k, none) => db.delete k

/-- `leveldb::DB::Write`. -/
def Db.writeBatch (db : Db) (batch : WriteBatch) : Db := batch.foldl Db.write db

/-! ## The queue -/

/-- A call to the queue inside a transaction: `Put`, `Delete` or `add_log`. -/
inductive Write where
  | put (k : Bytes) (v : Value)
  | delete (k : Bytes)
  | addLog (type : BinlogType) (cmd : BinlogCommand) (key : Bytes)
  deriving DecidableEq

/-- `Options::load` replaces a capacity of 0. -/
abbrev Capacity := {n : ℕ // 0 < n}

/-- `BinlogQueue`: the store, the bounds of the log, and the transaction that is being built. -/
structure BinlogQueue where
  db : Db
  minSeq : ℕ
  lastSeq : ℕ
  tranSeq : ℕ
  capacity : Capacity
  batch : WriteBatch

namespace BinlogQueue

/-- `begin`: a new transaction, whose entries are numbered behind the last one. -/
def begin (q : BinlogQueue) : BinlogQueue := { q with tranSeq := q.lastSeq, batch := [] }

/-- `rollback`; the batch is dropped by the next `begin`. -/
def rollback (q : BinlogQueue) : BinlogQueue := { q with tranSeq := 0 }

/-- `commit`: the batch is written, and its numbers are taken. -/
def commit (q : BinlogQueue) : BinlogQueue :=
  { q with db := q.db.writeBatch q.batch, lastSeq := q.tranSeq, tranSeq := 0 }

/-- `Put`, in the batch. -/
def put (q : BinlogQueue) (k : Bytes) (v : Value) : BinlogQueue :=
  { q with batch := q.batch ++ [(k, some v)] }

/-- `Delete`, in the batch. -/
def delete (q : BinlogQueue) (k : Bytes) : BinlogQueue := { q with batch := q.batch ++ [(k, none)] }

/-- `add_log`: the entry gets the next number. -/
def addLog (q : BinlogQueue) (type : BinlogType) (cmd : BinlogCommand) (key : Bytes) : BinlogQueue :=
  let tranSeq := (q.tranSeq + 1) % 2 ^ 64
  { q with
    tranSeq := tranSeq
    batch := q.batch ++ [(encodeSeqKey tranSeq, some (.log ⟨tranSeq, type, cmd, key⟩))] }

/-- A call that an operation makes. -/
def call (q : BinlogQueue) : Write → BinlogQueue
  | .put k v => q.put k v
  | .delete k => q.delete k
  | .addLog type cmd key => q.addLog type cmd key

/-- A `Transaction` from its constructor to its destructor: the calls, a `commit` or none, and the
`rollback` of the destructor. -/
def transaction (q : BinlogQueue) (ws : List Write) (committed : Bool) : BinlogQueue :=
  let q := ws.foldl call q.begin
  (if committed then q.commit else q).rollback

/-- `get`: the entry with a number. -/
def get (db : Db) (seq : ℕ) : Option Binlog :=
  match db.get (encodeSeqKey seq) with
  | some (.log l) => some l
  | _ => none

/-- The entry of a key, for `find_next` and `find_last`. -/
def loadEntry : Option (Bytes × Value) → Option Binlog
  | some (k, .log l) => if decodeSeqKey k ≠ 0 then some l else none
  | _ => none

/-- `find_next`. -/
def findNext (db : Db) (seq : ℕ) : Option Binlog :=
  match get db seq with
  | some l => some l
  | none => loadEntry (db.seek (encodeSeqKey seq))

/-- `find_last`: the iterator is put on the key of `UINT64_MAX`, or behind the last key, and takes
one step back. -/
def findLast (db : Db) : Option Binlog := loadEntry (db.lastBefore (encodeSeqKey (2 ^ 64 - 1)))

/-- The constructor. -/
def openDb (db : Db) (capacity : Capacity) : BinlogQueue :=
  let lastSeq := (findLast db).elim 0 Binlog.seq
  let minSeq := if capacity.val < lastSeq then lastSeq - capacity.val else 0
  { db := db
    minSeq := (findNext db minSeq).elim minSeq Binlog.seq
    lastSeq := lastSeq
    tranSeq := 0
    capacity := capacity
    batch := [] }

/-- `del_range`; the batches of 1000 follow one another. -/
def delRange (db : Db) (first last : ℕ) : Db :=
  (List.range' first (last + 1 - first)).foldl (fun db n => db.delete (encodeSeqKey n)) db

/-- `flush`, the command `clear_binlog`. -/
def flush (q : BinlogQueue) : BinlogQueue := { q with db := delRange q.db q.minSeq q.lastSeq }

/-- One turn of `log_clean_thread_func`. -/
def clean (q : BinlogQueue) : BinlogQueue :=
  if q.lastSeq - q.minSeq < q.capacity.val + 10000 then q
  else
    let last := q.lastSeq - q.capacity.val
    { q with db := delRange q.db q.minSeq last, minSeq := last + 1 }

end BinlogQueue

/-! ## Runs -/

/-- The data keys of the server start with the byte of another type. -/
def Write.IsData : Write → Prop
  | .put k _ => k.head? ≠ some DataType.SYNCLOG
  | .delete k => k.head? ≠ some DataType.SYNCLOG
  | .addLog .. => True

instance : DecidablePred Write.IsData
  | .put .. => inferInstanceAs (Decidable (_ ≠ _))
  | .delete .. => inferInstanceAs (Decidable (_ ≠ _))
  | .addLog .. => inferInstanceAs (Decidable True)

/-- The calls of a transaction. -/
structure Txn where
  writes : List Write
  isData : ∀ w ∈ writes, w.IsData

/-- What happens to the queue: a transaction with or without its `commit`, `clear_binlog`, a turn of
the cleaning thread, or the database being closed and opened with some capacity. -/
inductive BinlogStep where
  | transaction (t : Txn) (committed : Bool)
  | clearBinlog
  | clean
  | reopen (capacity : Capacity)

/-- The log after a step. -/
def BinlogQueue.step (q : BinlogQueue) : BinlogStep → BinlogQueue
  | .transaction t committed => q.transaction t.writes committed
  | .clearBinlog => q.flush
  | .clean => q.clean
  | .reopen capacity => openDb q.db capacity

/-- The numbers of the binlog entries of a batch. -/
def logNumbers (batch : WriteBatch) : List ℕ :=
  (batch.filter fun op => op.1.head? = some DataType.SYNCLOG).map fun op => decodeSeqKey op.1

/-- The numbers that a step gives to entries. -/
def BinlogQueue.assigned (q : BinlogQueue) : BinlogStep → Option (List ℕ)
  | .transaction t true => some (logNumbers (t.writes.foldl call q.begin).batch)
  | _ => none

/-! ## The entries of a transaction -/

/-- The entries that the calls `ws` make when `seq` is the last number given. -/
def logsOf (seq : ℕ) : List Write → List Binlog
  | [] => []
  | .addLog type cmd key :: ws => ⟨seq + 1, type, cmd, key⟩ :: logsOf (seq + 1) ws
  | .put _ _ :: ws => logsOf seq ws
  | .delete _ :: ws => logsOf seq ws

/-- The batch that the calls `ws` make when `seq` is the last number given. -/
def batchOf (seq : ℕ) : List Write → WriteBatch
  | [] => []
  | .addLog type cmd key :: ws =>
      (encodeSeqKey (seq + 1), some (.log ⟨seq + 1, type, cmd, key⟩)) :: batchOf (seq + 1) ws
  | .put k v :: ws => (k, some v) :: batchOf seq ws
  | .delete k :: ws => (k, none) :: batchOf seq ws

/-- The operation of a call on the data. -/
def Write.data : Write → Option (Bytes × Option Value)
  | .put k v => some (k, some v)
  | .delete k => some (k, none)
  | .addLog .. => none

/-- The database after the data writes of a transaction. -/
def Db.apply (db : Db) (ws : List Write) : Db := db.writeBatch (ws.filterMap Write.data)

@[simp]
theorem Db.apply_nil (db : Db) : db.apply [] = db := rfl

@[simp]
theorem Db.apply_put (db : Db) (k : Bytes) (v : Value) (ws : List Write) :
    db.apply (.put k v :: ws) = Db.apply (db.put k v) ws := rfl

@[simp]
theorem Db.apply_delete (db : Db) (k : Bytes) (ws : List Write) :
    db.apply (.delete k :: ws) = Db.apply (db.delete k) ws := rfl

@[simp]
theorem Db.apply_addLog (db : Db) (type : BinlogType) (cmd : BinlogCommand) (key : Bytes)
    (ws : List Write) : db.apply (.addLog type cmd key :: ws) = db.apply ws := rfl

/-- A call that concerns the keys `P`. -/
def Write.OnKeys (P : Bytes → Prop) : Write → Prop
  | .put k _ => P k
  | .delete k => P k
  | .addLog .. => True

/-- Calls leave the keys that they do not name. -/
theorem get_apply_of_onKeys {P : Bytes → Prop} {ws : List Write} (hws : ∀ w ∈ ws, w.OnKeys P)
    {k : Bytes} (hk : ¬ P k) : ∀ db : Db, (db.apply ws).get k = db.get k := by
  have hne : ∀ l, P l → k ≠ l := by
    rintro l hl rfl
    exact hk hl
  induction ws with
  | nil => intro db; rfl
  | cons w ws ih =>
      intro db
      have ih := ih fun w hw => hws w (List.mem_cons_of_mem _ hw)
      have hw := hws w List.mem_cons_self
      cases w with
      | put l v => exact (ih _).trans (OrderedMap.get_put_of_ne db v (hne l hw))
      | delete l => exact (ih _).trans (OrderedMap.get_delete_of_ne db (hne l hw))
      | addLog type cmd key => exact ih db

/-- The number of entries that the calls make. -/
def logCount (ws : List Write) : ℕ := (logsOf 0 ws).length

theorem length_logsOf (ws : List Write) : ∀ seq, (logsOf seq ws).length = logCount ws := by
  induction ws with
  | nil => intro seq; rfl
  | cons w ws ih =>
      intro seq
      cases w with
      | put k v => exact ih seq
      | delete k => exact ih seq
      | addLog type cmd key =>
          show (logsOf (seq + 1) ws).length + 1 = (logsOf (0 + 1) ws).length + 1
          rw [ih, ih]

theorem logCount_addLog (type : BinlogType) (cmd : BinlogCommand) (key : Bytes) (ws : List Write) :
    logCount (.addLog type cmd key :: ws) = logCount ws + 1 := by
  show (logsOf (0 + 1) ws).length + 1 = _
  rw [length_logsOf]

/-- The entries of one transaction are numbered consecutively. -/
theorem seqs_logsOf (ws : List Write) :
    ∀ seq, (logsOf seq ws).map Binlog.seq = List.range' (seq + 1) (logCount ws) := by
  induction ws with
  | nil => intro seq; rfl
  | cons w ws ih =>
      intro seq
      cases w with
      | put k v => exact ih seq
      | delete k => exact ih seq
      | addLog type cmd key =>
          rw [logCount_addLog, logsOf, List.map_cons, ih, List.range'_succ]

theorem seq_of_mem_logsOf {ws : List Write} {seq : ℕ} {l : Binlog} (h : l ∈ logsOf seq ws) :
    seq < l.seq ∧ l.seq ≤ seq + logCount ws := by
  have hmem : l.seq ∈ (logsOf seq ws).map Binlog.seq := List.mem_map_of_mem h
  rw [seqs_logsOf, List.mem_range'_1] at hmem
  omega

namespace BinlogQueue

/-- The calls of a transaction fill the batch, and the counter does not wrap. -/
theorem foldl_call (ws : List Write) : ∀ q : BinlogQueue, q.tranSeq + logCount ws < 2 ^ 64 →
    ws.foldl call q =
      { q with tranSeq := q.tranSeq + logCount ws, batch := q.batch ++ batchOf q.tranSeq ws } := by
  induction ws with
  | nil => intro q _; simp [batchOf, logCount, logsOf]
  | cons w ws ih =>
      intro q hq
      cases w with
      | put k v =>
          rw [List.foldl_cons, ih (q.call (.put k v)) hq]
          simp [call, put, batchOf, logCount, logsOf]
      | delete k =>
          rw [List.foldl_cons, ih (q.call (.delete k)) hq]
          simp [call, delete, batchOf, logCount, logsOf]
      | addLog type cmd key =>
          rw [logCount_addLog] at hq ⊢
          have hmod : (q.tranSeq + 1) % 2 ^ 64 = q.tranSeq + 1 := Nat.mod_eq_of_lt (by omega)
          have hcall : q.call (.addLog type cmd key) =
              { q with
                tranSeq := q.tranSeq + 1
                batch := q.batch ++ [(encodeSeqKey (q.tranSeq + 1),
                  some (.log ⟨q.tranSeq + 1, type, cmd, key⟩))] } := by
            simp only [call, addLog, hmod]
          rw [List.foldl_cons, hcall, ih _ (by show q.tranSeq + 1 + _ < _; omega)]
          simp only [batchOf, List.append_assoc, List.singleton_append]
          congr 1
          omega

/-- A committed transaction. -/
theorem transaction_true {q : BinlogQueue} (ws : List Write) (h : q.lastSeq + logCount ws < 2 ^ 64) :
    q.transaction ws true =
      { q with
        db := q.db.writeBatch (batchOf q.lastSeq ws)
        lastSeq := q.lastSeq + logCount ws
        tranSeq := 0
        batch := batchOf q.lastSeq ws } := by
  rw [transaction, foldl_call ws q.begin h]
  rfl

/-- The calls of a transaction only fill the batch. -/
theorem foldl_call_fields (ws : List Write) : ∀ q : BinlogQueue,
    (ws.foldl call q).db = q.db ∧ (ws.foldl call q).lastSeq = q.lastSeq ∧
      (ws.foldl call q).minSeq = q.minSeq := by
  induction ws with
  | nil => intro q; exact ⟨rfl, rfl, rfl⟩
  | cons w ws ih =>
      intro q
      obtain ⟨hdb, hlast, hmin⟩ := ih (q.call w)
      rw [List.foldl_cons, hdb, hlast, hmin]
      cases w <;> exact ⟨rfl, rfl, rfl⟩

/-- An aborted transaction leaves the database and the counter as they were. -/
theorem transaction_false (q : BinlogQueue) (ws : List Write) :
    (q.transaction ws false).db = q.db ∧ (q.transaction ws false).lastSeq = q.lastSeq ∧
      (q.transaction ws false).minSeq = q.minSeq :=
  foldl_call_fields ws q.begin

end BinlogQueue

/-! ## The database after a transaction -/

theorem head_encodeSeqKey (seq : ℕ) : (encodeSeqKey seq).head? = some DataType.SYNCLOG := rfl

theorem Db.get_write_of_ne {db : Db} {op : Bytes × Option Value} {k : Bytes} (h : k ≠ op.1) :
    (db.write op).get k = db.get k := by
  obtain ⟨l, v⟩ := op
  cases v with
  | none => exact OrderedMap.get_delete_of_ne db h
  | some v => exact OrderedMap.get_put_of_ne db v h

theorem Db.get_write_self (db : Db) (op : Bytes × Option Value) : (db.write op).get op.1 = op.2 := by
  obtain ⟨l, v⟩ := op
  cases v with
  | none => exact OrderedMap.get_delete_self db l
  | some v => exact OrderedMap.get_put_self db l v

/-- The data after a committed transaction: that of its data writes. -/
theorem get_writeBatch_data {ws : List Write} {k : Bytes} (hk : k.head? ≠ some DataType.SYNCLOG) :
    ∀ {db db' : Db} (seq : ℕ), db.get k = db'.get k →
      (db.writeBatch (batchOf seq ws)).get k = (db'.apply ws).get k := by
  induction ws with
  | nil => intro db db' seq h; exact h
  | cons w ws ih =>
      intro db db' seq h
      -- an operation on both sides
      have hop : ∀ op : Bytes × Option Value, (db.write op).get k = (db'.write op).get k := by
        intro op
        rcases eq_or_ne k op.1 with rfl | hne
        · rw [Db.get_write_self, Db.get_write_self]
        · rw [Db.get_write_of_ne hne, Db.get_write_of_ne hne, h]
      cases w with
      | put l v => exact ih seq (hop (l, some v))
      | delete l => exact ih seq (hop (l, none))
      | addLog type cmd key =>
          apply ih
          rw [Db.get_write_of_ne, h]
          rintro rfl
          exact hk (head_encodeSeqKey _)

/-- The binlog after a committed transaction: its entries, and the old ones. -/
theorem get_writeBatch_log {ws : List Write} (hws : ∀ w ∈ ws, w.IsData) : ∀ {db : Db} {seq n : ℕ},
    seq + logCount ws < 2 ^ 64 → n < 2 ^ 64 →
      (db.writeBatch (batchOf seq ws)).get (encodeSeqKey n) =
        (((logsOf seq ws).find? (·.seq = n)).map Value.log).or (db.get (encodeSeqKey n)) := by
  induction ws with
  | nil => intro db seq n _ _; rfl
  | cons w ws ih =>
      intro db seq n hseq hn
      have ih := @ih fun w hw => hws w (List.mem_cons_of_mem _ hw)
      have hw := hws w List.mem_cons_self
      cases w with
      | put k v =>
          have hne : encodeSeqKey n ≠ k := by rintro rfl; exact hw (head_encodeSeqKey n)
          exact (ih hseq hn).trans (by rw [Db.get_write_of_ne hne]; rfl)
      | delete k =>
          have hne : encodeSeqKey n ≠ k := by rintro rfl; exact hw (head_encodeSeqKey n)
          exact (ih hseq hn).trans (by rw [Db.get_write_of_ne hne]; rfl)
      | addLog type cmd key =>
          rw [logCount_addLog] at hseq
          refine (ih (by omega) hn).trans ?_
          rcases eq_or_ne (seq + 1) n with rfl | hne
          · -- the later entries have greater numbers
            have hlater : (logsOf (seq + 1) ws).find? (·.seq = seq + 1) = none := by
              apply List.find?_eq_none.mpr
              intro l hl
              have := (seq_of_mem_logsOf hl).1
              simp only [decide_eq_true_eq]
              omega
            rw [hlater, Db.get_write_self, logsOf, List.find?_cons_of_pos (by simp)]
            rfl
          · have hkey : encodeSeqKey n ≠ encodeSeqKey (seq + 1) := fun h =>
              hne (encodeSeqKey_inj hn (by omega) h).symm
            rw [Db.get_write_of_ne hkey, logsOf, List.find?_cons_of_neg (by simpa using hne)]

/-- The numbers of the entries of a batch are those of the transaction's entries. -/
theorem logNumbers_batchOf {ws : List Write} (hws : ∀ w ∈ ws, w.IsData) : ∀ {seq : ℕ},
    seq + logCount ws < 2 ^ 64 →
      logNumbers (batchOf seq ws) = List.range' (seq + 1) (logCount ws) := by
  induction ws with
  | nil => intro seq _; rfl
  | cons w ws ih =>
      intro seq hseq
      have ih := @ih fun w hw => hws w (List.mem_cons_of_mem _ hw)
      have hw := hws w List.mem_cons_self
      cases w with
      | put k v =>
          rw [logNumbers, batchOf, List.filter_cons_of_neg (by simpa [Write.IsData] using hw)]
          exact ih hseq
      | delete k =>
          rw [logNumbers, batchOf, List.filter_cons_of_neg (by simpa [Write.IsData] using hw)]
          exact ih hseq
      | addLog type cmd key =>
          rw [logCount_addLog] at hseq ⊢
          rw [logNumbers, batchOf, List.filter_cons_of_pos (by simp [head_encodeSeqKey]),
            List.map_cons, decodeSeqKey_encode (by omega), List.range'_succ]
          congr 1
          exact ih (by omega)

/-! ## Where the entries lie -/

/-- The keys of the binlog hold entries under their own numbers, which go up to `seq`. -/
def LogsUpTo (seq : ℕ) (db : Db) : Prop :=
  ∀ k v, db.get k = some v → k.head? = some DataType.SYNCLOG →
    ∃ l : Binlog, k = encodeSeqKey l.seq ∧ v = .log l ∧ 0 < l.seq ∧ l.seq ≤ seq

theorem LogsUpTo.mono {db : Db} {m n : ℕ} (h : LogsUpTo m db) (hle : m ≤ n) : LogsUpTo n db := by
  intro k v hget hhead
  obtain ⟨l, hk, hv, hpos, hl⟩ := h k v hget hhead
  exact ⟨l, hk, hv, hpos, hl.trans hle⟩

theorem LogsUpTo.write_data {db : Db} {n : ℕ} {op : Bytes × Option Value} (h : LogsUpTo n db)
    (hop : op.1.head? ≠ some DataType.SYNCLOG) : LogsUpTo n (db.write op) := by
  intro k v hget hhead
  apply h k v _ hhead
  rw [← hget, Db.get_write_of_ne]
  rintro rfl
  exact hop hhead

theorem LogsUpTo.delete {db : Db} {n : ℕ} (h : LogsUpTo n db) (l : Bytes) :
    LogsUpTo n (db.delete l) := by
  intro k v hget hhead
  apply h k v _ hhead
  rw [OrderedMap.get_delete] at hget
  split at hget
  · cases hget
  · exact hget

theorem LogsUpTo.delRange {db : Db} {n : ℕ} (h : LogsUpTo n db) (first last : ℕ) :
    LogsUpTo n (BinlogQueue.delRange db first last) := by
  have key : ∀ (ns : List ℕ) (db : Db), LogsUpTo n db →
      LogsUpTo n (ns.foldl (fun db n => db.delete (encodeSeqKey n)) db) := by
    intro ns
    induction ns with
    | nil => intro db h; exact h
    | cons m ns ih => intro db h; exact ih _ (h.delete _)
  exact key _ db h

theorem LogsUpTo.writeBatch {ws : List Write} (hws : ∀ w ∈ ws, w.IsData) : ∀ {db : Db} {seq : ℕ},
    LogsUpTo seq db → LogsUpTo (seq + logCount ws) (db.writeBatch (batchOf seq ws)) := by
  induction ws with
  | nil => intro db seq h; exact h
  | cons w ws ih =>
      intro db seq h
      have ih := @ih fun w hw => hws w (List.mem_cons_of_mem _ hw)
      have hw := hws w List.mem_cons_self
      cases w with
      | put k v => exact ih (h.write_data hw)
      | delete k => exact ih (h.write_data hw)
      | addLog type cmd key =>
          rw [logCount_addLog, ← Nat.add_assoc, Nat.add_right_comm]
          apply ih
          intro k v hget hhead
          rcases eq_or_ne k (encodeSeqKey (seq + 1)) with rfl | hne
          · rw [Db.get_write_self] at hget
            exact ⟨_, rfl, (Option.some.inj hget).symm, Nat.succ_pos seq, Nat.le_refl _⟩
          · rw [Db.get_write_of_ne hne] at hget
            exact h.mono (Nat.le_succ seq) k v hget hhead

/-! ## Opening the database -/

theorem encodeSeqKey_of_decode {k : Bytes} (h : decodeSeqKey k ≠ 0) :
    k.head? = some DataType.SYNCLOG := by
  rw [decodeSeqKey] at h
  split at h
  · rename_i hk
    exact hk.2
  · exact absurd rfl h

/-- The number of an entry of the database. -/
theorem seq_of_get {db : Db} {seq n : ℕ} (hdb : LogsUpTo seq db) {l : Binlog}
    (h : db.get (encodeSeqKey n) = some (.log l)) : encodeSeqKey n = encodeSeqKey l.seq ∧ l.seq ≤ seq := by
  obtain ⟨l', hk, hv, -, hle⟩ := hdb _ _ h (head_encodeSeqKey n)
  obtain rfl : l = l' := Value.log.inj hv
  exact ⟨hk, hle⟩

/-- Entries that are found are entries of the database. -/
theorem get_of_loadEntry {db : Db} {seq : ℕ} (hdb : LogsUpTo seq db) {p : Option (Bytes × Value)}
    {l : Binlog} (hp : ∀ k v, p = some (k, v) → db.get k = some v)
    (h : BinlogQueue.loadEntry p = some l) : db.get (encodeSeqKey l.seq) = some (.log l) := by
  unfold BinlogQueue.loadEntry at h
  split at h
  · rename_i k l'
    split at h
    · rename_i hdecode
      cases h
      have hget := hp k _ rfl
      obtain ⟨l', hk, hv, -⟩ := hdb k _ hget (encodeSeqKey_of_decode hdecode)
      cases hv
      rwa [hk] at hget
    · cases h
  · cases h

theorem get_of_findLast {db : Db} {seq : ℕ} (hdb : LogsUpTo seq db) {l : Binlog}
    (h : BinlogQueue.findLast db = some l) : db.get (encodeSeqKey l.seq) = some (.log l) :=
  get_of_loadEntry hdb (fun _ _ hp => (OrderedMap.lastBefore_eq_some hp).2) h

theorem get_of_findNext {db : Db} {seq n : ℕ} (hdb : LogsUpTo seq db) {l : Binlog}
    (h : BinlogQueue.findNext db n = some l) : db.get (encodeSeqKey l.seq) = some (.log l) := by
  unfold BinlogQueue.findNext at h
  split at h
  · rename_i l' hget
    cases h
    unfold BinlogQueue.get at hget
    split at hget
    · rename_i hsome
      cases hget
      rw [← (seq_of_get hdb hsome).1, hsome]
    · cases hget
  · exact get_of_loadEntry hdb (fun _ _ hp => (OrderedMap.seek_eq_some hp).2.1) h

theorem seq_of_findLast {db : Db} {seq : ℕ} (hdb : LogsUpTo seq db) {l : Binlog}
    (h : BinlogQueue.findLast db = some l) : l.seq ≤ seq :=
  (seq_of_get hdb (get_of_findLast hdb h)).2

theorem seq_of_findNext {db : Db} {seq n : ℕ} (hdb : LogsUpTo seq db) {l : Binlog}
    (h : BinlogQueue.findNext db n = some l) : l.seq ≤ seq :=
  (seq_of_get hdb (get_of_findNext hdb h)).2

/-- A key between two keys of the binlog is one. -/
theorem head_of_between {m n : ℕ} {k : Bytes} (hm : encodeSeqKey m < k) (hn : k < encodeSeqKey n) :
    k.head? = some DataType.SYNCLOG := by
  cases k with
  | nil => exact absurd hm (by simp [encodeSeqKey])
  | cons b t =>
      rw [encodeSeqKey, List.cons_lt_cons_iff] at hm hn
      have hle : DataType.SYNCLOG ≤ b := by
        rcases hm with hm | hm
        · exact hm.le
        · exact hm.1.le
      have hge : b ≤ DataType.SYNCLOG := by
        rcases hn with hn | hn
        · exact hn.le
        · exact hn.1.le
      rw [List.head?_cons, le_antisymm hge hle]

/-- An entry of the database is loaded. -/
theorem loadEntry_ne_none {db : Db} {seq : ℕ} (hdb : LogsUpTo seq db) (hseq : seq < 2 ^ 64) {k : Bytes}
    {v : Value} (hget : db.get k = some v) (hhead : k.head? = some DataType.SYNCLOG) :
    BinlogQueue.loadEntry (some (k, v)) ≠ none := by
  obtain ⟨l, rfl, rfl, hpos, hle⟩ := hdb k v hget hhead
  rw [BinlogQueue.loadEntry, decodeSeqKey_encode (by omega), if_pos (by omega)]
  exact Option.some_ne_none l

/-- Where no last entry is found, there is none. -/
theorem get_of_findLast_eq_none {db : Db} {seq : ℕ} (hdb : LogsUpTo seq db) (hseq : seq < 2 ^ 64 - 1)
    (h : BinlogQueue.findLast db = none) {n : ℕ} (hn : n < 2 ^ 64 - 1) :
    db.get (encodeSeqKey n) = none := by
  by_contra hne
  obtain ⟨v, hv⟩ := Option.ne_none_iff_exists'.mp hne
  obtain ⟨⟨k, w⟩, hlast, hle⟩ := OrderedMap.exists_lastBefore hv (encodeSeqKey_lt hn (by decide))
  obtain ⟨hlt, hget⟩ := OrderedMap.lastBefore_eq_some hlast
  have hhead : k.head? = some DataType.SYNCLOG := by
    rcases hle.lt_or_eq with hlt' | heq
    · exact head_of_between hlt' hlt
    · rw [← show encodeSeqKey n = k from heq]
      exact head_encodeSeqKey n
  rw [BinlogQueue.findLast, hlast] at h
  exact loadEntry_ne_none hdb (by omega) hget hhead h

/-- Where no next entry is found, there is none. -/
theorem get_of_findNext_eq_none {db : Db} {seq : ℕ} (hdb : LogsUpTo seq db) (hseq : seq < 2 ^ 64 - 1)
    {m : ℕ} (h : BinlogQueue.findNext db m = none) {n : ℕ} (hmn : m ≤ n) (hn : n < 2 ^ 64) :
    db.get (encodeSeqKey n) = none := by
  by_contra hne
  obtain ⟨v, hv⟩ := Option.ne_none_iff_exists'.mp hne
  have hle : encodeSeqKey m ≤ encodeSeqKey n := by
    rcases hmn.lt_or_eq with hlt | rfl
    · exact (encodeSeqKey_lt hlt hn).le
    · exact le_rfl
  have hload : BinlogQueue.loadEntry (db.seek (encodeSeqKey m)) = none := by
    unfold BinlogQueue.findNext at h
    split at h
    · cases h
    · exact h
  cases hseek : db.seek (encodeSeqKey m) with
  | none => exact hne (OrderedMap.seek_eq_none hseek hle)
  | some p =>
      obtain ⟨k, w⟩ := p
      obtain ⟨hfirst, hget, hbefore⟩ := OrderedMap.seek_eq_some hseek
      have hlast : k ≤ encodeSeqKey n := by
        by_contra hlt
        rw [hbefore _ hle (not_le.mp hlt)] at hv
        cases hv
      have hhead : k.head? = some DataType.SYNCLOG := by
        rcases hfirst.lt_or_eq with hlt | rfl
        · rcases hlast.lt_or_eq with hlt' | rfl
          · exact head_of_between hlt hlt'
          · exact head_encodeSeqKey n
        · exact head_encodeSeqKey m
      rw [hseek] at hload
      exact loadEntry_ne_none hdb (by omega) hget hhead hload

/-- **The last entry is found** while it is there. -/
theorem findLast_eq {db : Db} {seq : ℕ} (hdb : LogsUpTo seq db) (hseq : seq < 2 ^ 64 - 1) {v : Value}
    (hget : db.get (encodeSeqKey seq) = some v) :
    ∃ l, BinlogQueue.findLast db = some l ∧ l.seq = seq := by
  obtain ⟨l, hk, rfl, hpos, hle⟩ := hdb _ v hget (head_encodeSeqKey seq)
  have hl : l.seq = seq := encodeSeqKey_inj (by omega) (by omega) hk.symm
  refine ⟨l, ?_, hl⟩
  have hlast : db.lastBefore (encodeSeqKey (2 ^ 64 - 1)) = some (encodeSeqKey seq, .log l) := by
    apply OrderedMap.lastBefore_of_get hget (encodeSeqKey_lt hseq (by decide))
    intro k hlt hlt'
    rw [Option.eq_none_iff_forall_ne_some]
    intro w hw
    obtain ⟨l', rfl, -, -, hle'⟩ := hdb k w hw (head_of_between hlt hlt')
    rcases hle'.lt_or_eq with h | h
    · exact lt_asymm hlt (encodeSeqKey_lt h (by omega))
    · rw [h] at hlt
      exact lt_irrefl _ hlt
  rw [BinlogQueue.findLast, hlast, BinlogQueue.loadEntry, decodeSeqKey_encode (by omega), if_pos]
  omega

/-! ## Numbering over whole runs -/

/-- What the queue is between two steps. -/
structure BinlogQueue.Numbered (q : BinlogQueue) : Prop where
  logs : LogsUpTo q.lastSeq q.db
  bound : q.lastSeq < 2 ^ 64 - 1
  /-- The assertion of the cleaning thread. -/
  minSeq_le : q.minSeq ≤ q.lastSeq

/-- The steps that keep the counter: a commit does not use up the 64 bits, and the database is
opened while its last entry is there. -/
def BinlogQueue.KeepsCounter (q : BinlogQueue) : BinlogStep → Prop
  | .transaction t true => q.lastSeq + logCount t.writes < 2 ^ 64 - 1
  | .reopen _ => q.lastSeq = 0 ∨ (BinlogQueue.get q.db q.lastSeq).isSome
  | _ => True

instance (q : BinlogQueue) : DecidablePred q.KeepsCounter
  | .transaction _ true => inferInstanceAs (Decidable (_ < _))
  | .transaction _ false => inferInstanceAs (Decidable True)
  | .reopen _ => inferInstanceAs (Decidable (_ ∨ _))
  | .clearBinlog => inferInstanceAs (Decidable True)
  | .clean => inferInstanceAs (Decidable True)

namespace BinlogQueue

theorem Numbered.openDb {db : Db} (seq : ℕ) (hdb : LogsUpTo seq db) (hseq : seq < 2 ^ 64 - 1)
    (capacity : Capacity) (hlast : (findLast db).elim 0 Binlog.seq = seq) :
    (openDb db capacity).Numbered ∧ (openDb db capacity).lastSeq = seq := by
  refine ⟨⟨?_, ?_, ?_⟩, hlast⟩
  · show LogsUpTo ((findLast db).elim 0 Binlog.seq) db
    rw [hlast]
    exact hdb
  · show (findLast db).elim 0 Binlog.seq < _
    rw [hlast]
    exact hseq
  · simp only [BinlogQueue.openDb, hlast]
    cases hnext : findNext db (if capacity.val < seq then seq - capacity.val else 0) with
    | none =>
        show (if capacity.val < seq then seq - capacity.val else 0) ≤ seq
        split <;> omega
    | some l => exact seq_of_findNext hdb hnext

/-- Opening the database finds the counter again. -/
theorem Numbered.reopen {q : BinlogQueue} (hq : q.Numbered) {capacity : Capacity}
    (h : q.KeepsCounter (.reopen capacity)) :
    (BinlogQueue.openDb q.db capacity).Numbered ∧
      (BinlogQueue.openDb q.db capacity).lastSeq = q.lastSeq := by
  apply Numbered.openDb _ hq.logs hq.bound
  rcases h with h | h
  · cases hfind : findLast q.db with
    | none => exact h.symm
    | some l =>
        have := seq_of_findLast hq.logs hfind
        show l.seq = q.lastSeq
        omega
  · obtain ⟨l, hget⟩ := Option.isSome_iff_exists.mp h
    unfold BinlogQueue.get at hget
    split at hget
    · rename_i hsome
      obtain ⟨l', hfind, hl'⟩ := findLast_eq hq.logs hq.bound hsome
      rw [hfind]
      exact hl'
    · cases hget

/-- **One step.**  The numbers that it gives follow the counter. -/
theorem Numbered.step {q : BinlogQueue} (hq : q.Numbered) {l : BinlogStep} (h : q.KeepsCounter l) :
    (q.step l).Numbered ∧
      List.range' 1 (q.step l).lastSeq = List.range' 1 q.lastSeq ++ (q.assigned l).getD [] := by
  cases l with
  | transaction t committed =>
      cases committed with
      | false =>
          -- an aborted transaction gives its numbers back
          obtain ⟨hdb, hlast, hmin⟩ := transaction_false q t.writes
          refine ⟨⟨?_, ?_, ?_⟩, ?_⟩
          · show LogsUpTo (q.transaction t.writes false).lastSeq (q.transaction t.writes false).db
            rw [hdb, hlast]
            exact hq.logs
          · exact hlast.trans_lt hq.bound
          · exact (hmin.trans_le hq.minSeq_le).trans hlast.ge
          · show List.range' 1 (q.transaction t.writes false).lastSeq = _ ++ []
            rw [hlast, List.append_nil]
      | true =>
          -- a committed one takes the numbers that follow the last, one for each log
          have hbound : q.lastSeq + logCount t.writes < 2 ^ 64 - 1 := h
          have hstep := transaction_true (q := q) t.writes (by omega)
          have hbatch : (t.writes.foldl call q.begin).batch = batchOf q.lastSeq t.writes := by
            rw [foldl_call _ _ (show q.begin.tranSeq + _ < _ by show q.lastSeq + _ < _; omega)]
            rfl
          refine ⟨?_, ?_⟩
          · show (q.transaction t.writes true).Numbered
            rw [hstep]
            exact ⟨hq.logs.writeBatch t.isData, hbound, hq.minSeq_le.trans (Nat.le_add_right _ _)⟩
          · show List.range' 1 (q.transaction t.writes true).lastSeq =
              _ ++ logNumbers (t.writes.foldl call q.begin).batch
            rw [hstep, hbatch, logNumbers_batchOf t.isData (by omega), Nat.add_comm q.lastSeq 1,
              List.range'_append_1]
  | clearBinlog =>
      refine ⟨⟨hq.logs.delRange _ _, hq.bound, hq.minSeq_le⟩, ?_⟩
      exact (List.append_nil _).symm
  | clean =>
      have hpos := q.capacity.property
      have hmin := hq.minSeq_le
      show (q.clean).Numbered ∧ List.range' 1 q.clean.lastSeq = _ ++ []
      unfold BinlogQueue.clean
      split
      · exact ⟨hq, (List.append_nil _).symm⟩
      · refine ⟨⟨hq.logs.delRange _ _, hq.bound, ?_⟩, (List.append_nil _).symm⟩
        show q.lastSeq - q.capacity.val + 1 ≤ q.lastSeq
        omega
  | reopen capacity =>
      obtain ⟨hnum, hlast⟩ := hq.reopen h
      refine ⟨hnum, ?_⟩
      show List.range' 1 (BinlogQueue.openDb q.db capacity).lastSeq = _ ++ []
      rw [hlast, List.append_nil]

end BinlogQueue

/-- A transaction is **all or nothing**: with its commit every data key reads as after its data
writes, its entries are in the binlog under the numbers behind the last one, and no other entry
changes; without a commit nothing changes. -/
structure BinlogQueue.Atomic (q : BinlogQueue) (t : Txn) : Prop where
  data : ∀ k : Bytes, k.head? ≠ some DataType.SYNCLOG →
    (q.transaction t.writes true).db.get k = (q.db.apply t.writes).get k
  numbers : (logsOf q.lastSeq t.writes).map Binlog.seq =
    List.range' (q.lastSeq + 1) (logCount t.writes)
  entries : ∀ l ∈ logsOf q.lastSeq t.writes,
    (q.transaction t.writes true).db.get (encodeSeqKey l.seq) = some (.log l)
  older : ∀ n < 2 ^ 64, n ∉ List.range' (q.lastSeq + 1) (logCount t.writes) →
    (q.transaction t.writes true).db.get (encodeSeqKey n) = q.db.get (encodeSeqKey n)
  lastSeq : (q.transaction t.writes true).lastSeq = q.lastSeq + logCount t.writes
  aborted : (q.transaction t.writes false).db = q.db ∧
    (q.transaction t.writes false).lastSeq = q.lastSeq

theorem BinlogQueue.atomic {q : BinlogQueue} {t : Txn} (h : q.KeepsCounter (.transaction t true)) :
    q.Atomic t := by
  have hbound : q.lastSeq + logCount t.writes < 2 ^ 64 - 1 := h
  have hstep := transaction_true (q := q) t.writes (by omega)
  have hlog : ∀ n < 2 ^ 64, (q.transaction t.writes true).db.get (encodeSeqKey n) =
      (((logsOf q.lastSeq t.writes).find? (·.seq = n)).map Value.log).or
        (q.db.get (encodeSeqKey n)) := by
    intro n hn
    rw [hstep]
    exact get_writeBatch_log t.isData (by omega) hn
  constructor
  case data =>
    intro k hk
    rw [hstep]
    exact get_writeBatch_data hk q.lastSeq rfl
  case numbers => exact seqs_logsOf t.writes q.lastSeq
  case entries =>
    intro l hl
    have hle := (seq_of_mem_logsOf hl).2
    have hnodup : ((logsOf q.lastSeq t.writes).map Binlog.seq).Nodup := by
      rw [seqs_logsOf]
      exact List.nodup_range'
    have hfind : (logsOf q.lastSeq t.writes).find? (·.seq = l.seq) = some l := by
      cases hfind : (logsOf q.lastSeq t.writes).find? (·.seq = l.seq) with
      | none => simpa using List.find?_eq_none.mp hfind l hl
      | some l' =>
          have heq : l'.seq = l.seq := by simpa using List.find?_some hfind
          rw [List.inj_on_of_nodup_map hnodup (List.mem_of_find?_eq_some hfind) hl heq]
    rw [hlog l.seq (by omega), hfind]
    rfl
  case older =>
    intro n hn hnot
    have hfind : (logsOf q.lastSeq t.writes).find? (·.seq = n) = none := by
      apply List.find?_eq_none.mpr
      intro l hl
      simp only [decide_eq_true_eq]
      rintro rfl
      rw [← seqs_logsOf] at hnot
      exact hnot (List.mem_map_of_mem hl)
    rw [hlog n hn, hfind]
    rfl
  case lastSeq => rw [hstep]
  case aborted => exact ⟨(transaction_false q t.writes).1, (transaction_false q t.writes).2.1⟩

/-- **Binlog numbering.**  In every run from a new database whose steps keep the counter, the
numbers given so far are `1, 2, …` up to `last_seq`, in this order, so that none is given twice and
each is greater than all before it; and every transaction is all or nothing. -/
theorem binlog_numbering (capacity : Capacity) (ls : List BinlogStep)
    (h : Guarded BinlogQueue.step BinlogQueue.KeepsCounter (.openDb .empty capacity) ls) :
    let q := ls.foldl BinlogQueue.step (.openDb .empty capacity)
    let numbers :=
      (eventValues BinlogQueue.step BinlogQueue.assigned (.openDb .empty capacity) ls).flatten
    numbers = List.range' 1 q.lastSeq ∧ numbers.Pairwise (· < ·) ∧
      ∀ t, q.KeepsCounter (.transaction t true) → q.Atomic t := by
  intro q numbers
  have hstart : (BinlogQueue.openDb .empty capacity).Numbered ∧
      (BinlogQueue.openDb .empty capacity).lastSeq = 0 := by
    apply BinlogQueue.Numbered.openDb 0 _ (by decide) capacity rfl
    intro k v hget _
    cases hget
  have hrun : q.Numbered ∧ List.range' 1 q.lastSeq = numbers := by
    let H : List (List ℕ) → BinlogQueue → Prop := fun vs q =>
      q.Numbered ∧ List.range' 1 q.lastSeq = vs.flatten
    show H ([] ++ eventValues BinlogQueue.step BinlogQueue.assigned (.openDb .empty capacity) ls) q
    refine h.history ?_ ?_
    · intro vs q l hq hl
      obtain ⟨hnum, hrange⟩ := hq.1.step hl
      refine ⟨hnum, ?_⟩
      rw [hrange, hq.2, List.flatten_append]
      cases q.assigned l <;> simp
    · exact ⟨hstart.1, by rw [hstart.2]; rfl⟩
  refine ⟨hrun.2.symm, ?_, fun t ht => BinlogQueue.atomic ht⟩
  rw [← hrun.2]
  exact List.pairwise_lt_range'

/-- A `set` of the key `a`. -/
def setA : Txn where
  writes := [.put (encodeKvKey (ascii "a")) (.bytes (ascii "1")),
    .addLog .sync .kset (encodeKvKey (ascii "a"))]
  isData := by decide

/-- Two commits around opening the database, with an aborted transaction and a cleaning turn. -/
theorem binlog_numbering_sample :
    let ls : List BinlogStep := [.transaction setA true, .transaction setA false, .clean,
      .reopen ⟨20, by decide⟩, .transaction setA true]
    (eventValues BinlogQueue.step BinlogQueue.assigned (.openDb .empty ⟨10, by decide⟩) ls).flatten =
        [1, 2] ∧
      (ls.foldl BinlogQueue.step (.openDb .empty ⟨10, by decide⟩)).Atomic setA := by
  intro ls
  have h := binlog_numbering ⟨10, by decide⟩ ls (by decide)
  exact ⟨h.1.trans (by decide), h.2.2 setA (by decide)⟩

/-- **A number given twice.**  A write, `clear_binlog`, a restart and another write: both writes get
the number 1. -/
theorem number_reused_after_clear_and_reopen :
    (eventValues BinlogQueue.step BinlogQueue.assigned (.openDb .empty ⟨10, by decide⟩)
        [.transaction setA true, .clearBinlog, .reopen ⟨10, by decide⟩,
          .transaction setA true]).flatten = [1, 1] ∧
      ¬ (eventValues BinlogQueue.step BinlogQueue.assigned (.openDb .empty ⟨10, by decide⟩)
        [.transaction setA true, .clearBinlog, .reopen ⟨10, by decide⟩,
          .transaction setA true]).flatten.Pairwise (· < ·) := by
  constructor <;> decide

end Ssdb
