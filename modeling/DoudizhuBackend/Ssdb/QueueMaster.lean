/-
# The versions of a queue

`QueueWatch` keeps, beside a master and its slave, the database of the master for each number that was
given; the numbers that are still to come have the database of now.  In runs in which the binlog is not
cleared, every entry behind the number `base` is found under its number, and leads from one version of
the queue to the next (`QueueWatch.Recorded`).
-/
import DoudizhuBackend.Ssdb.QueueReplica

namespace Ssdb

/-- The key of an item, a front pointer or a back pointer is that of a queue with a short name. -/
def IsItemKey (k : Bytes) : Prop :=
  k.head? = some DataType.QUEUE → ∃ name seq, IsShort name ∧ k = encodeQitemKey name seq

/-! ## Databases -/

/-- What lies under the number of an item is that item. -/
theorem item_eq_get {db : Db} (hdb : db.AllQueues) (name : Bytes) {n : ℕ} (hmin : qitemMinSeq ≤ n)
    (hmax : n ≤ qitemMaxSeq) :
    (numbered db name).item n = (db.get (encodeQitemKey name n)).map Value.image := by
  obtain ⟨front, items, hq⟩ := hdb name
  simp only [qitemMinSeq] at hmin
  simp only [qitemMaxSeq] at hmax
  have hfront : n ≠ qfrontSeq := by simp only [qfrontSeq]; omega
  have hback : n ≠ qbackSeq := by simp only [qbackSeq]; omega
  rw [hq.numbered_eq, hq.item n (by omega) hfront hback]
  show (if front ≤ n then items[n - front]? else none) = _
  split
  · cases items[n - front]? <;> rfl
  · rfl

/-- The keys of the items that an operation writes. -/
theorem Operation.putsItems {op : Operation} (hop : op.ShortQueue) (db : Db) (logType : BinlogType) :
    ∀ w ∈ op.writes db logType, w.Puts IsItemKey := by
  have hone : ∀ {name : Bytes}, IsShort name → ∀ k, IsQueueKey name k → IsItemKey k := by
    rintro name hname k (rfl | ⟨seq, rfl⟩) hhead
    · exact absurd hhead (by rw [encodeQsizeKey, List.head?_cons]; decide)
    · exact ⟨name, seq, hname, rfl⟩
  intro w hw
  by_cases hf : op.family = .queue
  · cases op with
    | qpush name item e => exact (onQueue_qpush db name item e logType w hw).puts (hone hop)
    | qpop name e => exact (onQueue_qpop db name e logType w hw).puts (hone hop)
    | qset name index item => exact (onQueue_qset db name index item logType w hw).puts (hone hop)
    | _ => cases hf
  · refine (op.onFamily db logType w hw).puts fun k hk hhead => ?_
    exact absurd (Family.eq_of_holds hk (show Family.queue.Holds k from Or.inl hhead)) hf

/-- Queues with short names. -/
theorem items_write {db : Db} (h : db.Keys IsItemKey) {op : Operation} (hop : op.ShortQueue)
    (logType : BinlogType) : Db.Keys IsItemKey (db.apply (op.writes db logType)) :=
  h.apply (op.putsItems hop db logType)

/-- Databases with the same data have the same queues. -/
theorem numbered_congr {db db' : Db} (hdb : db.AllQueues)
    (hget : ∀ k, k.head? ≠ some DataType.SYNCLOG → db'.get k = db.get k) (name : Bytes) :
    (∃ front items, db'.IsQueue name front items) ∧ numbered db' name = numbered db name := by
  obtain ⟨front, items, hq⟩ := hdb name
  have hq' : db'.IsQueue name front items :=
    hq.congr (hget _ (by rw [encodeQsizeKey, List.head?_cons]; decide))
      fun seq _ => hget _ (by rw [encodeQitemKey, List.head?_cons]; decide)
  exact ⟨⟨front, items, hq'⟩, by rw [hq.numbered_eq, hq'.numbered_eq]⟩

/-- The next entry is found. -/
theorem findNext_of_get {db : Db} {seq : ℕ} {l : Binlog} (h : db.get (encodeSeqKey seq) = some (.log l)) :
    BinlogQueue.findNext db seq = some l := by
  have hget : BinlogQueue.get db seq = some l := by rw [BinlogQueue.get, h]
  rw [BinlogQueue.findNext, hget]

/-- No earlier entry is. -/
theorem le_of_findNext {db : Db} {seq n : ℕ} (hdb : LogsUpTo seq db) (hseq : seq < 2 ^ 64) (hn : n < 2 ^ 64)
    {l : Binlog} (h : BinlogQueue.findNext db n = some l) : n ≤ l.seq := by
  have hle := seq_of_findNext hdb h
  unfold BinlogQueue.findNext at h
  split at h
  · rename_i l' hget
    cases h
    unfold BinlogQueue.get at hget
    split at hget
    · rename_i hsome
      cases hget
      exact (encodeSeqKey_inj hn (by omega) (seq_of_get hdb hsome).1).le
    · cases hget
  · unfold BinlogQueue.loadEntry at h
    split at h
    · rename_i k l' hseek
      split at h
      · cases h
        obtain ⟨hfirst, hget, -⟩ := OrderedMap.seek_eq_some hseek
        obtain ⟨l', rfl, hl', -⟩ := hdb k _ hget (encodeSeqKey_of_decode ‹_›)
        cases hl'
        by_contra hlt
        exact absurd (encodeSeqKey_lt (not_le.mp hlt) hn) hfirst.not_gt
      · cases h
    · cases h

/-! ## Versions -/

/-- A replication, and the store that the master had with each number of its log. -/
structure QueueWatch where
  world : Replication
  past : ℕ → Db

namespace QueueWatch

/-- The past stays, and the numbers that a step adds stand for the store behind it. -/
def step (x : QueueWatch) (l : ReplicationStep) : QueueWatch where
  world := x.world.step l
  past n := if n ≤ x.world.master.lastSeq then x.past n else (x.world.step l).master.db

/-- The past of one queue. -/
def history (x : QueueWatch) (name : Bytes) : QueueHistory ℕ Bytes where
  past n := numbered (x.past n) name
  last := x.world.master.lastSeq

/-- **The entries behind the number `base` are those of the operations on the queue.** -/
structure Recorded (x : QueueWatch) (name : Bytes) (base : ℕ) : Prop where
  base_le : base ≤ x.world.master.lastSeq
  bound : x.world.master.lastSeq < 2 ^ 64 - 1
  logs : LogsUpTo x.world.master.lastSeq x.world.master.db
  stored : x.world.master.db.Stored
  items : x.world.master.db.Keys IsItemKey
  now : numbered (x.past x.world.master.lastSeq) name = numbered x.world.master.db name
  queues : ∀ n, base ≤ n → ∃ front items, (x.past n).IsQueue name front items
  entry : ∀ n, base ≤ n → n < x.world.master.lastSeq →
    ∃ l, x.world.master.db.get (encodeSeqKey (n + 1)) = some (.log l) ∧ l.seq = n + 1 ∧
      l.Records name (numbered (x.past n) name) (numbered (x.past (n + 1)) name)
  last : x.world.master.lastSeq = 0 ∨
    ∃ l, x.world.master.db.get (encodeSeqKey x.world.master.lastSeq) = some (.log l)

variable {x : QueueWatch} {name : Bytes} {base : ℕ}

/-- The last version is that of now. -/
theorem Recorded.item_last (h : x.Recorded name base) {n : ℕ} (hmin : qitemMinSeq ≤ n)
    (hmax : n ≤ qitemMaxSeq) :
    ((x.history name).past (x.history name).last).item n =
      (x.world.master.db.get (encodeQitemKey name n)).map Value.image := by
  show (numbered (x.past x.world.master.lastSeq) name).item n = _
  rw [h.now, item_eq_get h.stored.store.queues name hmin hmax]

/-- A record that is read as an item of the queue is one, and has a recent value. -/
theorem Recorded.recent (h : x.Recorded name base) {m : ℕ} (hm : m ≤ x.world.master.lastSeq) {k : Bytes}
    {v : Value} (hget : x.world.master.db.get k = some v) (hhead : k.head? = some DataType.QUEUE) {n : ℕ}
    (hn : itemNumber name k = some n) :
    k = encodeQitemKey name n ∧ (x.history name).Recent m n v.image := by
  obtain ⟨name', seq, hname, rfl⟩ := h.items k v hget hhead
  obtain ⟨-, hkey, hmin, hmax⟩ := encode_of_itemNumber hname hn
  refine ⟨hkey, .now hm (Or.inl ?_)⟩
  rw [h.item_last hmin hmax, ← hkey, hget]
  rfl

/-! ## Operations -/

/-- **An operation of the master.** -/
theorem Recorded.write (h : x.Recorded name base) {op : Operation} (hop : op.ShortQueue)
    (hbound : x.world.master.lastSeq + logCount (op.writes x.world.master.db .sync) < 2 ^ 64 - 1) :
    (x.step (.write op)).Recorded name base := by
  have hlead : LogsLead name (numbered x.world.master.db name)
      (numbered (x.world.master.db.apply (op.writes x.world.master.db .sync)) name) x.world.master.lastSeq
      (logsOf x.world.master.lastSeq (op.writes x.world.master.db .sync)) :=
    Operation.ships h.stored hop x.world.master.lastSeq
  have hitems := items_write h.items hop .sync
  have hstored := h.stored.write op .sync
  have hdata := op.isData x.world.master.db .sync
  have hworld : (x.step (.write op)).world.master =
      x.world.master.transaction (op.writes x.world.master.db .sync) true := rfl
  have hpast : ∀ n, (x.step (.write op)).past n = if n ≤ x.world.master.lastSeq then x.past n
      else (x.world.master.transaction (op.writes x.world.master.db .sync) true).db := fun n => rfl
  generalize op.writes x.world.master.db .sync = ws at hbound hlead hitems hstored hdata hworld hpast
  rw [BinlogQueue.transaction_true ws (by omega)] at hworld hpast
  dsimp only at hpast
  generalize hdb' : x.world.master.db.writeBatch (batchOf x.world.master.lastSeq ws) = db' at hworld hpast
  have hget : ∀ k, k.head? ≠ some DataType.SYNCLOG →
      db'.get k = (x.world.master.db.apply ws).get k := by
    intro k hk
    rw [← hdb']
    exact get_writeBatch_data hk x.world.master.lastSeq rfl
  obtain ⟨hqueue, hnumbered⟩ := numbered_congr hstored.store.queues hget name
  have hlast : (x.step (.write op)).world.master.lastSeq = x.world.master.lastSeq + logCount ws := by
    rw [hworld]
  have hdb : (x.step (.write op)).world.master.db = db' := by rw [hworld]
  have hlogOf : ∀ n < 2 ^ 64, db'.get (encodeSeqKey n) =
      (((logsOf x.world.master.lastSeq ws).find? (·.seq = n)).map Value.log).or
        (x.world.master.db.get (encodeSeqKey n)) := by
    intro n hn
    rw [← hdb']
    exact get_writeBatch_log hdata (by omega) hn
  -- an entry from before
  have hold : ∀ n ≤ x.world.master.lastSeq,
      db'.get (encodeSeqKey n) = x.world.master.db.get (encodeSeqKey n) := by
    intro n hn
    rw [hlogOf n (by omega), List.find?_eq_none.mpr, Option.map_none, Option.none_or]
    intro l hl
    have := (seq_of_mem_logsOf hl).1
    simp only [decide_eq_true_eq]
    omega
  -- an entry of the operation
  have hnew : ∀ n, x.world.master.lastSeq < n → n ≤ x.world.master.lastSeq + logCount ws →
      ∃ l ∈ logsOf x.world.master.lastSeq ws, l.seq = n ∧ db'.get (encodeSeqKey n) = some (.log l) := by
    intro n hlt hle
    have hmem : n ∈ (logsOf x.world.master.lastSeq ws).map Binlog.seq := by
      rw [seqs_logsOf, List.mem_range'_1]
      omega
    obtain ⟨l, hl, rfl⟩ := List.mem_map.mp hmem
    cases hfind : (logsOf x.world.master.lastSeq ws).find? (·.seq = l.seq) with
    | none => exact absurd (List.find?_eq_none.mp hfind l hl) (by simp)
    | some l' =>
        refine ⟨l', List.mem_of_find?_eq_some hfind, by simpa using List.find?_some hfind, ?_⟩
        rw [hlogOf l.seq (by omega), hfind]
        rfl
  constructor
  case base_le =>
    rw [hlast]
    exact h.base_le.trans (Nat.le_add_right _ _)
  case bound => rwa [hlast]
  case logs =>
    rw [hlast, hdb, ← hdb']
    exact h.logs.writeBatch hdata
  case stored =>
    rw [hdb]
    exact hstored.congr hget
  case items =>
    rw [hdb]
    intro k v hk hhead
    rw [hget k (by rw [hhead]; decide)] at hk
    exact hitems k v hk hhead
  case now =>
    rw [hlast, hdb, hpast]
    rcases Nat.eq_zero_or_pos (logCount ws) with hzero | hpos
    · have hnil : logsOf x.world.master.lastSeq ws = [] := by
        rw [← List.length_eq_zero_iff, length_logsOf, hzero]
      rw [if_pos (by omega), hzero, Nat.add_zero, h.now, hnumbered, hlead.nil hnil]
    · rw [if_neg (by omega)]
  case queues =>
    intro n hn
    rw [hpast]
    split
    · exact h.queues n hn
    · exact hqueue
  case entry =>
    intro n hn hlt
    rw [hlast] at hlt
    rw [hdb]
    rcases Nat.lt_trichotomy n x.world.master.lastSeq with hbefore | hat | hbehind
    · rw [hold (n + 1) (by omega), hpast, hpast, if_pos (by omega), if_pos (by omega)]
      exact h.entry n hn hbefore
    · obtain ⟨l, hl, hseq, hlog⟩ := hnew (n + 1) (by omega) (by omega)
      refine ⟨l, hlog, hseq, ?_⟩
      rw [hpast, hpast, if_pos (by omega), if_neg (by omega), hat, h.now, hnumbered]
      exact hlead.first l hl (by omega)
    · obtain ⟨l, hl, hseq, hlog⟩ := hnew (n + 1) (by omega) (by omega)
      refine ⟨l, hlog, hseq, ?_⟩
      rw [hpast, hpast, if_neg (by omega), if_neg (by omega), hnumbered]
      exact hlead.later l hl (by omega)
  case last =>
    rw [hlast, hdb]
    rcases Nat.eq_zero_or_pos (logCount ws) with hzero | hpos
    · rw [hzero, Nat.add_zero, hold _ le_rfl]
      exact h.last
    · obtain ⟨l, -, -, hlog⟩ := hnew (x.world.master.lastSeq + logCount ws) (by omega) le_rfl
      exact Or.inr ⟨l, hlog⟩

end QueueWatch

end Ssdb
