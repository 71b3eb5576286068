/-
# The master as a source

The records of the master with the entries that its operations have added since some moment are a
source (`BinlogQueue.Ships`), whatever the binlog held before, and however much of it is cleared:
operations commit to it (`BinlogQueue.Ships.write`).
-/
import DoudizhuBackend.Ssdb.ReplicaRecords

namespace Ssdb

/-- Whether an entry is about a record that is set. -/
def BinlogCommand.sets (cmd : BinlogCommand) : Bool := cmd = .kset ∨ cmd = .hset ∨ cmd = .zset

theorem sets_of_entryCommand {sets : Bool} {k : Bytes} {cmd : BinlogCommand}
    (h : entryCommand sets k = some cmd) : cmd.sets = sets := by
  unfold entryCommand at h
  obtain ⟨t, -, h⟩ := Option.bind_eq_some_iff.mp h
  split at h
  · cases sets <;> cases h <;> rfl
  · split at h
    · cases sets <;> cases h <;> rfl
    · split at h
      · cases sets <;> cases h <;> rfl
      · cases h

/-- What an entry says: its key, and whether it is set. -/
def Binlog.entry (l : Binlog) : Bytes × Bool := (l.key, l.cmd.sets)

/-- The records of the master, and the entries behind the number `base`. -/
def BinlogQueue.source (q : BinlogQueue) (base : ℕ) (hist : List Binlog) : Source Bytes Bytes where
  content := q.db.content
  base := base
  log := hist.map Binlog.entry

/-- **The entries `hist` are all that the operations have added behind the number `base`**; those that
are still in the binlog are found under their numbers. -/
structure BinlogQueue.Ships (q : BinlogQueue) (base : ℕ) (hist : List Binlog) : Prop where
  last : q.lastSeq = base + hist.length
  bound : q.lastSeq < 2 ^ 64 - 1
  logs : LogsUpTo q.lastSeq q.db
  entry : ∀ n l, base < n → n < 2 ^ 64 → q.db.get (encodeSeqKey n) = some (.log l) →
    hist[n - base - 1]? = some l
  named : ∀ l ∈ hist, l.type = .sync ∧ entryCommand l.cmd.sets l.key = some l.cmd ∧ IsNamed l.key
  honest : (q.source base hist).Honest
  stored : q.db.Stored
  ne_nil : q.db.Keys (· ≠ encodeKvKey [])

/-! ## Clearing -/

theorem get_delRange (db : Db) (first last : ℕ) (k : Bytes) :
    (BinlogQueue.delRange db first last).get k = db.get k ∨
      k.head? = some DataType.SYNCLOG ∧ (BinlogQueue.delRange db first last).get k = none := by
  unfold BinlogQueue.delRange
  generalize List.range' first (last + 1 - first) = ns
  induction ns generalizing db with
  | nil => exact Or.inl rfl
  | cons n ns ih =>
      rw [List.foldl_cons]
      rcases ih (db.delete (encodeSeqKey n)) with h | h
      · rw [h]
        rcases eq_or_ne k (encodeSeqKey n) with rfl | hne
        · exact Or.inr ⟨rfl, OrderedMap.get_delete_self _ _⟩
        · exact Or.inl (OrderedMap.get_delete_of_ne _ hne)
      · exact Or.inr h

theorem get_delRange_data {db : Db} (first last : ℕ) {k : Bytes} (hk : k.head? ≠ some DataType.SYNCLOG) :
    (BinlogQueue.delRange db first last).get k = db.get k :=
  (get_delRange db first last k).resolve_right fun h => hk h.1

theorem get_of_get_delRange {db : Db} {first last : ℕ} {k : Bytes} {v : Value}
    (h : (BinlogQueue.delRange db first last).get k = some v) : db.get k = some v := by
  rcases get_delRange db first last k with heq | heq
  · rw [← heq, h]
  · rw [heq.2] at h
    cases h

theorem content_of_data {db db' : Db}
    (hget : ∀ k, k.head? ≠ some DataType.SYNCLOG → db'.get k = db.get k) : db'.content = db.content := by
  apply Db.content_congr
  rintro k (h | h | h) <;> exact hget k (by rw [h]; decide)

/-! ## Operations -/

/-- The calls of an operation are on data. -/
theorem Operation.isData (op : Operation) (db : Db) (logType : BinlogType) :
    ∀ w ∈ op.writes db logType, w.IsData := by
  intro w hw
  have hon := op.onFamily db logType w hw
  cases w with
  | put k v => exact Family.head_ne_synclog hon
  | delete k => exact Family.head_ne_synclog hon
  | addLog type cmd key => trivial

theorem mem_logsOf {ws : List Write} : ∀ {seq : ℕ} {l : Binlog}, l ∈ logsOf seq ws →
    .addLog l.type l.cmd l.key ∈ ws := by
  induction ws with
  | nil => intro seq l h; cases h
  | cons w ws ih =>
      intro seq l h
      cases w with
      | put k v => exact List.mem_cons_of_mem _ (ih h)
      | delete k => exact List.mem_cons_of_mem _ (ih h)
      | addLog type cmd key =>
          rcases List.mem_cons.mp h with rfl | h
          · exact List.mem_cons_self
          · exact List.mem_cons_of_mem _ (ih h)

theorem exists_mem_logsOf {ws : List Write} {type : BinlogType} {cmd : BinlogCommand} {key : Bytes}
    (h : .addLog type cmd key ∈ ws) : ∀ seq, ∃ l ∈ logsOf seq ws, l.cmd = cmd ∧ l.key = key := by
  induction ws with
  | nil => cases h
  | cons w ws ih =>
      intro seq
      rcases List.mem_cons.mp h with rfl | hmem
      · exact ⟨_, List.mem_cons_self, rfl, rfl⟩
      · cases w with
        | put k v => exact ih hmem seq
        | delete k => exact ih hmem seq
        | addLog type' cmd' key' =>
            obtain ⟨l, hl, heq⟩ := ih hmem (seq + 1)
            exact ⟨l, List.mem_cons_of_mem _ hl, heq⟩

/-- The entry with a number stands in its place. -/
theorem getElem?_logsOf {ws : List Write} {seq : ℕ} {l : Binlog} (h : l ∈ logsOf seq ws) :
    (logsOf seq ws)[l.seq - seq - 1]? = some l := by
  obtain ⟨i, hi, hget⟩ := List.getElem_of_mem h
  have hseq : l.seq = seq + 1 + i := by
    have hmap := congrArg (·[i]?) (seqs_logsOf ws seq)
    simp only [List.getElem?_map, List.getElem?_eq_getElem hi, hget, Option.map_some] at hmap
    rw [List.getElem?_range' (by rwa [length_logsOf] at hi)] at hmap
    simpa using hmap
  rw [show l.seq - seq - 1 = i from by omega, List.getElem?_eq_getElem hi, hget]

namespace BinlogQueue.Ships

variable {q : BinlogQueue} {base : ℕ} {hist : List Binlog}

/-- `clear_binlog` takes nothing away but entries. -/
theorem flush (h : q.Ships base hist) : q.flush.Ships base hist := by
  have hget : ∀ k, k.head? ≠ some DataType.SYNCLOG → q.flush.db.get k = q.db.get k :=
    fun k hk => get_delRange_data q.minSeq q.lastSeq hk
  constructor
  case last => exact h.last
  case bound => exact h.bound
  case logs => exact h.logs.delRange _ _
  case entry => exact fun n l hn hn' hl => h.entry n l hn hn' (get_of_get_delRange hl)
  case named => exact h.named
  case honest =>
    have hsource : q.flush.source base hist = q.source base hist := by
      rw [source, source, content_of_data hget]
    rw [hsource]
    exact h.honest
  case stored => exact h.stored.congr hget
  case ne_nil => exact fun k v hk => h.ne_nil k v (get_of_get_delRange hk)

/-- **An operation commits to the source.** -/
theorem write (h : q.Ships base hist) {op : Operation} (hop : op.family ≠ .queue)
    (hincr : ∀ by_, op ≠ .incr [] by_)
    (hbound : q.lastSeq + logCount (op.writes q.db .sync) < 2 ^ 64 - 1) :
    ∃ es, (q.transaction (op.writes q.db .sync) true).Ships base (hist ++ es) ∧
      (q.source base hist).Commits (q.transaction (op.writes q.db .sync) true).db.content
        (es.map Binlog.entry) := by
  obtain ⟨sets, hlogged⟩ := Operation.logged h.stored.store.hashes h.stored.members hop .sync
  have hputs := op.puts_ne_nil hincr q.db .sync
  have hstored := h.stored.write op .sync
  have hdata := op.isData q.db .sync
  generalize op.writes q.db .sync = ws at hbound hlogged hputs hstored hdata ⊢
  -- each new entry names a replicated record
  have hnamed : ∀ l ∈ logsOf q.lastSeq ws,
      l.type = .sync ∧ entryCommand l.cmd.sets l.key = some l.cmd ∧ IsNamed l.key ∧ l.cmd.sets = sets := by
    intro l hl
    obtain ⟨htype, hcmd, hkey, -⟩ := hlogged.log _ _ _ (mem_logsOf hl)
    have hsets := sets_of_entryCommand hcmd
    exact ⟨htype, by rw [hsets, hcmd], hkey, hsets⟩
  rw [transaction_true ws (by omega)]
  have hget : ∀ k, k.head? ≠ some DataType.SYNCLOG →
      (q.db.writeBatch (batchOf q.lastSeq ws)).get k = (q.db.apply ws).get k :=
    fun k hk => get_writeBatch_data hk q.lastSeq rfl
  have hcontent := content_of_data hget
  -- what changes is logged, and the entry tells the new content
  have hcommits : (q.source base hist).Commits (q.db.writeBatch (batchOf q.lastSeq ws)).content
      ((logsOf q.lastSeq ws).map Binlog.entry) := by
    rw [hcontent]
    constructor
    · intro k hne
      obtain ⟨cmd, hlog⟩ := hlogged.exists_log hne
      obtain ⟨l, hl, -, hkey⟩ := exists_mem_logsOf hlog q.lastSeq
      exact ⟨_, List.mem_map.mpr ⟨l, hl, by rw [Binlog.entry, hkey]⟩⟩
    · intro k b hmem
      obtain ⟨l, hl, heq⟩ := List.mem_map.mp hmem
      obtain ⟨rfl, rfl⟩ := Prod.mk.inj heq
      rw [(hnamed l hl).2.2.2]
      exact hlogged.tells (mem_logsOf hl) q.db
  refine ⟨logsOf q.lastSeq ws, ?_, hcommits⟩
  have hlast := h.last
  constructor
  case last =>
    show q.lastSeq + logCount ws = _
    rw [List.length_append, length_logsOf, hlast]
    omega
  case bound => exact hbound
  case logs => exact h.logs.writeBatch hdata
  case entry =>
    intro n l hn hn' hl
    rw [get_writeBatch_log hdata (by omega) hn'] at hl
    -- an entry is new, and at its place behind the old ones, or it is an old one
    rcases Option.or_eq_some_iff.mp hl with hnew | ⟨-, hold⟩
    · obtain ⟨l', hfind, heq⟩ := Option.map_eq_some_iff.mp hnew
      obtain rfl : l' = l := Value.log.inj heq
      have hmem := List.mem_of_find?_eq_some hfind
      obtain rfl : l'.seq = n := by simpa using List.find?_some hfind
      have hrange := seq_of_mem_logsOf hmem
      rw [List.getElem?_append_right (by omega),
        show l'.seq - base - 1 - hist.length = l'.seq - q.lastSeq - 1 from by omega]
      exact getElem?_logsOf hmem
    · have hsome := h.entry n l hn hn' hold
      rw [List.getElem?_append_left (List.getElem?_eq_some_iff.mp hsome).1]
      exact hsome
  case named =>
    intro l hl
    rcases List.mem_append.mp hl with hl | hl
    · exact h.named l hl
    · obtain ⟨htype, hcmd, hkey, -⟩ := hnamed l hl
      exact ⟨htype, hcmd, hkey⟩
  case honest =>
    have hsource := h.honest.commit hcommits
    rwa [Source.commit, source, ← List.map_append] at hsource
  case stored => exact hstored.congr hget
  case ne_nil =>
    intro k v hk hnil
    rw [hget k (by rw [hnil]; decide)] at hk
    exact h.ne_nil.apply hputs k v hk hnil

/-- An entry of the binlog behind the number `base` is one of the source. -/
theorem entry_of_get (h : q.Ships base hist) {l : Binlog} (hbase : base < l.seq)
    (hget : q.db.get (encodeSeqKey l.seq) = some (.log l)) :
    (q.source base hist).entry l.seq = some l.entry ∧ l ∈ hist := by
  have hle := (seq_of_get h.logs hget).2
  have hbound := h.bound
  have hsome := h.entry l.seq l hbase (by omega) hget
  refine ⟨?_, List.mem_of_getElem? hsome⟩
  rw [Source.entry, if_pos (show (q.source base hist).base < l.seq from hbase)]
  show (hist.map Binlog.entry)[l.seq - base - 1]? = _
  rw [List.getElem?_map, hsome, Option.map_some]

theorem source_last (h : q.Ships base hist) : (q.source base hist).last = q.lastSeq := by
  rw [h.last, Source.last, source, List.length_map]

end BinlogQueue.Ships

/-! ## Entries from before -/

/-- The binlog holds no entry between `n` and `base`. -/
def BinlogQueue.Past (q : BinlogQueue) (base n : ℕ) : Prop :=
  ∀ m, n < m → m ≤ base → q.db.get (encodeSeqKey m) = none

namespace BinlogQueue.Past

variable {q : BinlogQueue} {base m n : ℕ} {hist : List Binlog}

theorem mono (h : q.Past base m) (hle : m ≤ n) : q.Past base n :=
  fun i hi hbase => h i (hle.trans_lt hi) hbase

theorem flush (h : q.Past base n) : q.flush.Past base n := by
  intro i hi hbase
  rcases get_delRange q.db q.minSeq q.lastSeq (encodeSeqKey i) with heq | heq
  · exact heq.trans (h i hi hbase)
  · exact heq.2

/-- Transactions add entries behind. -/
theorem transaction (h : q.Past base n) (hbase : base ≤ q.lastSeq) {ws : List Write}
    (hws : ∀ w ∈ ws, w.IsData) (hbound : q.lastSeq + logCount ws < 2 ^ 64 - 1) :
    (q.transaction ws true).Past base n := by
  intro i hi hle
  rw [transaction_true ws (by omega)]
  show (q.db.writeBatch (batchOf q.lastSeq ws)).get (encodeSeqKey i) = none
  rw [get_writeBatch_log hws (by omega) (by omega), h i hi hle, Option.or_none, Option.map_eq_none_iff,
    List.find?_eq_none]
  intro l hl
  have := (seq_of_mem_logsOf hl).1
  simp only [decide_eq_true_eq]
  omega

end BinlogQueue.Past

end Ssdb
