/-
# What the thread of the master keeps

A copy starts with `last_key` empty: entries of the binlog are then passed over, whatever they are
about (`Client.Waits`).  With the first key that is sent the slave follows the master
(`Replica.Follows`): the cursor is the last key sent, and the number is `last_seq`, where 0 stands for
the last number that was given before the iterator was made (`Origin.mark`).

Behind each of the messages on the way the slave may connect again (`Slave.Resumes`), and behind the
last of them it is where the thread takes it to be (`Client.Serves`).  Each turn of the thread keeps
both.
-/
import DoudizhuBackend.Ssdb.ReplicaMaster
import DoudizhuBackend.Ssdb.ReplicaSlave
import DoudizhuBackend.Ssdb.ReplicaTurns

namespace Ssdb

/-! ## The master behind a number -/

/-- The master with the entries `hist` that its operations have added behind the number `base`, and the
number that `last_seq` 0 stands for in a copy that has begun. -/
structure Origin where
  master : BinlogQueue
  base : ℕ
  hist : List Binlog
  mark : ℕ

namespace Origin

/-- The source of entries and versions that the master is. -/
def source (o : Origin) : Source Bytes Bytes := o.master.source o.base o.hist

/-- The number that a `last_seq` stands for. -/
def number (o : Origin) (lastSeq : ℕ) : ℕ := if lastSeq = 0 then o.mark else lastSeq

/-- The entries are those of the master, and the mark is one of its numbers. -/
structure Valid (o : Origin) : Prop where
  ships : o.master.Ships o.base o.hist
  mark_le : o.mark ≤ o.master.lastSeq

variable {o : Origin}

theorem number_of_ne {n : ℕ} (h : n ≠ 0) : o.number n = n := if_neg h

theorem number_le (ho : o.Valid) {n : ℕ} (h : n ≤ o.master.lastSeq) : o.number n ≤ o.master.lastSeq := by
  unfold number
  split
  · exact ho.mark_le
  · exact h

/-- Numbers that count are those of `last_seq`. -/
theorem number_mono {m n : ℕ} (hm : m ≠ 0) (hle : m ≤ n) : o.number m ≤ o.number n := by
  rw [number_of_ne hm, number_of_ne (by omega)]
  exact hle

end Origin

/-! ## Slaves -/

namespace Slave

/-- The last key copied; none is left when `copy_end` has come. -/
def cursor (s : Slave) : WithBot (WithTop Bytes) := if s.lastKey = [] then ⊤ else cursorAt s.lastKey

/-- A slave that can be served from its number and its key, unless it starts from the beginning. -/
structure Resumes (o : Origin) (s : Slave) : Prop where
  store : s.db.IsStore
  seq_le : s.lastSeq ≤ o.master.lastSeq
  key_gt : s.lastKey ≠ [] → [DataType.MIN_PREFIX] < s.lastKey
  follows : s.lastSeq ≠ 0 ∨ s.lastKey ≠ [] →
    Replica.Follows ⟨s.db.content, o.number s.lastSeq, s.cursor⟩ o.source none
  past : s.lastSeq ≠ 0 ∨ s.lastKey ≠ [] → o.master.Past o.base s.lastSeq

/-- A slave from before any copy. -/
structure IsNew (s : Slave) : Prop where
  seq : s.lastSeq = 0
  key : s.lastKey = []
  content : ∀ k, s.db.content k = none

end Slave

/-! ## Clients -/

namespace Client

/-- A client whose copy has not begun. -/
structure Waits (o : Origin) (c : Client) : Prop where
  atStart : c.AtStart
  iter : c.iter = none
  point : ∀ log, c.point ≠ .send log
  seq_le : c.lastSeq ≤ o.master.lastSeq
  past : c.point = .copy → o.master.Past o.base c.lastSeq

/-- The entry that is to be sent. -/
structure Sends (o : Origin) (c : Client) (log : Binlog) : Prop where
  seq : c.lastSeq = log.seq
  entry : o.source.entry log.seq = some log.entry
  mem : log ∈ o.hist
  le : cursorAt log.key ≤ c.cursor

/-- The iterator of a copy: records of some moment behind a key, which the binlog completes. -/
structure Iterates (o : Origin) (seq : ℕ) (key : Bytes) (cursor : WithBot (WithTop Bytes)) (db : Db) :
    Prop where
  stored : db.Stored
  ne_nil : db.Keys (· ≠ encodeKvKey [])
  fresh : o.source.Fresh db.content (o.number seq) cursor
  key_ge : [DataType.MIN_PREFIX] ≤ key
  cursor_le : cursor ≤ cursorAt key
  ahead : ∀ k, cursor < cursorAt k → db.content k ≠ none → key < k

/-- A client whose copy has begun, and the slave behind all messages. -/
structure Leads (o : Origin) (c : Client) (s : Slave) : Prop where
  follows : Replica.Follows ⟨s.db.content, o.number c.lastSeq, c.cursor⟩ o.source c.hand
  past : o.master.Past o.base c.lastSeq
  seq_le : c.lastSeq ≤ o.master.lastSeq
  slave_le : s.lastSeq ≤ c.lastSeq
  status : c.status = .copy ∧ s.lastKey = c.lastKey ∧ [DataType.MIN_PREFIX] < c.lastKey ∨
    c.status = .sync ∧ s.lastKey = [] ∧ c.point ≠ .copy
  sends : ∀ log, c.point = .send log → c.Sends o log
  iter : ∀ es, c.iter = some es → c.status = .copy →
    ∃ db, Iterates o c.lastSeq c.lastKey c.cursor db ∧ es = db.after c.lastKey

/-- The slave behind all messages is where the client takes it to be. -/
def Serves (o : Origin) (c : Client) (s : Slave) : Prop := c.Waits o ∨ c.Leads o s

/-- A slave on its way through the messages of a client. -/
structure Awaits (o : Origin) (c : Client) (s : Slave) : Prop where
  resumes : s.Resumes o
  isNew : c.AtStart → s.IsNew

end Client

/-! ## The master goes on -/

/-- What operations and `clear_binlog` keep. -/
structure Origin.Grows (o o' : Origin) : Prop where
  last_le : o.master.lastSeq ≤ o'.master.lastSeq
  mark : o'.mark = o.mark
  mem : ∀ l ∈ o.hist, l ∈ o'.hist
  entry : ∀ n e, o.source.entry n = some e → o'.source.entry n = some e
  past : ∀ n, o.master.Past o.base n → o'.master.Past o'.base n
  follows : ∀ {r : Replica Bytes Bytes} {hand}, r.Follows o.source hand → r.seq ≤ o.master.lastSeq →
    r.Follows o'.source hand
  fresh : ∀ {snapshot n cursor}, o.source.Fresh snapshot n cursor → n ≤ o.master.lastSeq →
    o'.source.Fresh snapshot n cursor

namespace Origin

variable {o o' : Origin}

theorem Valid.write (ho : o.Valid) {op : Operation} (hop : op.family ≠ .queue)
    (hincr : ∀ by_, op ≠ .incr [] by_)
    (hbound : o.master.lastSeq + logCount (op.writes o.master.db .sync) < 2 ^ 64 - 1) :
    ∃ hist, Valid ⟨o.master.transaction (op.writes o.master.db .sync) true, o.base, hist, o.mark⟩ ∧
      Grows o ⟨o.master.transaction (op.writes o.master.db .sync) true, o.base, hist, o.mark⟩ := by
  obtain ⟨es, hships, hcommits⟩ := ho.ships.write hop hincr hbound
  have hdata := op.isData o.master.db .sync
  generalize op.writes o.master.db .sync = ws at hbound hships hcommits hdata ⊢
  have hlast := ho.ships.source_last
  have hbase : o.base ≤ o.master.lastSeq := by
    rw [ho.ships.last]
    exact Nat.le_add_right _ _
  have hle : o.master.lastSeq ≤ (o.master.transaction ws true).lastSeq := by
    rw [BinlogQueue.transaction_true ws (by omega)]
    exact Nat.le_add_right _ _
  -- the entries of the transaction stand behind the others
  have hsource : (o.master.transaction ws true).source o.base (o.hist ++ es) =
      o.source.commit (o.master.transaction ws true).db.content (es.map Binlog.entry) := by
    rw [BinlogQueue.source, List.map_append]
    rfl
  refine ⟨o.hist ++ es, ⟨hships, ho.mark_le.trans hle⟩, ?_⟩
  constructor
  case last_le => exact hle
  case mark => rfl
  case mem => exact fun l => List.mem_append_left es
  case entry =>
    intro n e hentry
    rw [source, hsource]
    exact Source.entry_commit hentry
  case past => exact fun n hpast => hpast.transaction hbase hdata hbound
  case follows =>
    intro r hand hfollows hseq
    rw [source, hsource]
    exact hfollows.commit hcommits (hseq.trans_eq hlast.symm)
  case fresh =>
    intro snapshot n cursor hfresh hn
    rw [source, hsource]
    exact hfresh.commit hcommits (hn.trans_eq hlast.symm)

theorem Valid.flush (ho : o.Valid) :
    Valid ⟨o.master.flush, o.base, o.hist, o.mark⟩ ∧ Grows o ⟨o.master.flush, o.base, o.hist, o.mark⟩ := by
  have hcontent : o.master.flush.db.content = o.master.db.content :=
    content_of_data fun k hk => get_delRange_data o.master.minSeq o.master.lastSeq hk
  have hsource : o.master.flush.source o.base o.hist = o.source := by
    rw [source, BinlogQueue.source, BinlogQueue.source, hcontent]
  refine ⟨⟨ho.ships.flush, ho.mark_le⟩, ?_⟩
  constructor
  case last_le => exact le_rfl
  case mark => rfl
  case mem => exact fun l hl => hl
  case entry =>
    intro n e hentry
    rw [source, hsource]
    exact hentry
  case past => exact fun n hpast => hpast.flush
  case follows =>
    intro r hand hfollows _
    rw [source, hsource]
    exact hfollows
  case fresh =>
    intro snapshot n cursor hfresh _
    rw [source, hsource]
    exact hfresh

end Origin

section Grows

variable {o o' : Origin} {c : Client} {s : Slave}

theorem Origin.Grows.number (h : o.Grows o') : o'.number = o.number := by
  funext n
  rw [Origin.number, Origin.number, h.mark]

theorem Slave.Resumes.grows (hs : s.Resumes o) (ho : o.Valid) (h : o.Grows o') : s.Resumes o' where
  store := hs.store
  seq_le := hs.seq_le.trans h.last_le
  key_gt := hs.key_gt
  follows := by
    intro hne
    rw [h.number]
    exact h.follows (hs.follows hne) (Origin.number_le ho hs.seq_le)
  past := fun hne => h.past _ (hs.past hne)

theorem Client.Awaits.grows (hs : c.Awaits o s) (ho : o.Valid) (h : o.Grows o') : c.Awaits o' s :=
  ⟨hs.resumes.grows ho h, hs.isNew⟩

theorem Client.Serves.grows (hc : c.Serves o s) (ho : o.Valid) (h : o.Grows o') : c.Serves o' s := by
  rcases hc with hc | hc
  · refine Or.inl ⟨hc.atStart, hc.iter, hc.point, hc.seq_le.trans h.last_le, ?_⟩
    exact fun hpoint => h.past _ (hc.past hpoint)
  · refine Or.inr ?_
    constructor
    case follows =>
      rw [h.number]
      exact h.follows hc.follows (Origin.number_le ho hc.seq_le)
    case past => exact h.past _ hc.past
    case seq_le => exact hc.seq_le.trans h.last_le
    case slave_le => exact hc.slave_le
    case status => exact hc.status
    case sends =>
      intro log hpoint
      obtain ⟨hseq, hentry, hmem, hle⟩ := hc.sends log hpoint
      exact ⟨hseq, h.entry _ _ hentry, h.mem _ hmem, hle⟩
    case iter =>
      intro es hes hstatus
      obtain ⟨db, hdb, heq⟩ := hc.iter es hes hstatus
      refine ⟨db, ⟨hdb.stored, hdb.ne_nil, ?_, hdb.key_ge, hdb.cursor_le, hdb.ahead⟩, heq⟩
      rw [h.number]
      exact h.fresh hdb.fresh (Origin.number_le ho hc.seq_le)

end Grows

/-! ## A turn of `sync` -/

/-- The entry that a turn of `sync` finds: one about a key, while nothing has been copied; the next one,
where `last_seq` 0 stands for the number `mark`; or one for which `sync` compares the numbers. -/
def Client.Finds (mark : ℕ) (c : Client) (log : Binlog) : Prop :=
  if c.AtStart then log.key ≠ []
  else if c.lastSeq = 0 then log.seq ≤ mark + 1
  else c.status = .copy → c.lastKey < log.key → log.seq = c.lastSeq + 1

instance (mark : ℕ) (c : Client) (log : Binlog) : Decidable (c.Finds mark log) :=
  inferInstanceAs (Decidable (if c.AtStart then log.key ≠ []
    else if c.lastSeq = 0 then log.seq ≤ mark + 1
    else c.status = .copy → c.lastKey < log.key → log.seq = c.lastSeq + 1))

namespace Client

variable {o : Origin} {c : Client} {s : Slave} {log : Binlog}

/-- Where none is found, there is none behind `last_seq`. -/
theorem past_of_findLog (ho : o.Valid) (hle : c.lastSeq ≤ o.master.lastSeq)
    (h : c.findLog o.master.db = none) : o.master.Past o.base c.lastSeq := by
  have hbound := ho.ships.bound
  have hlast := ho.ships.last
  intro n hn hbase
  exact get_of_findLog_eq_none ho.ships.logs hbound hle h hn (by omega)

/-- An entry behind `last_seq` is one of the source, and the slave follows up to the one before it. -/
theorem Leads.found (hc : c.Leads o s) (ho : o.Valid) (hpoint : c.point = .sync)
    (hfind : c.findLog o.master.db = some log) (hlt : c.lastSeq < log.seq)
    (hle : log.seq ≤ o.number c.lastSeq + 1) :
    log ∈ o.hist ∧ o.source.entry (log.seq - 1 + 1) = some log.entry ∧
      Replica.Follows ⟨s.db.content, log.seq - 1, c.cursor⟩ o.source none := by
  obtain ⟨hget, hpos, -⟩ := get_of_findLog ho.ships.logs hfind
  have hbase : o.base < log.seq := by
    by_contra hge
    rw [hc.past _ hlt (not_lt.mp hge)] at hget
    cases hget
  obtain ⟨hentry, hmem⟩ := ho.ships.entry_of_get hbase hget
  have hhand : c.hand = none := by rw [hand, hpoint]
  have hfollows := hc.follows
  rw [hhand] at hfollows
  refine ⟨hmem, ?_, hfollows.rewind (by omega)⟩
  rw [Nat.sub_add_cancel hpos]
  exact hentry

/-- A turn of the thread: what the slaves on the way are, and what the one behind all messages is. -/
structure Moves (o o' : Origin) (c : Client) (r : Client × List Message) : Prop where
  awaits : ∀ s, c.Awaits o s → r.1.Awaits o' s
  serves : ∀ s, c.Awaits o s → c.Serves o s → s.Reads Slave.Fits (r.1.Awaits o') (r.1.Serves o') r.2

theorem Awaits.of_atStart {c' : Client} (h : c.Awaits o s) (hstart : c'.AtStart → c.AtStart) :
    c'.Awaits o s :=
  ⟨h.resumes, fun hc => h.isNew (hstart hc)⟩

/-- A turn that sends nothing. -/
theorem Moves.silent {c' : Client} (hstart : c'.AtStart → c.AtStart)
    (hserves : ∀ s, c.Awaits o s → c.Serves o s → c'.Serves o s) : c.Moves o o (c', []) where
  awaits := fun _ hs => hs.of_atStart hstart
  serves := fun s hs hc => ⟨hs.of_atStart hstart, hserves s hs hc⟩

theorem Leads.not_atStart (hc : c.Leads o s) : ¬ c.AtStart := by
  rintro ⟨hcopy, hkey⟩
  rcases hc.status with ⟨-, -, hgt⟩ | ⟨hsync, -⟩
  · rw [hkey] at hgt
    exact absurd hgt (by decide)
  · rw [hcopy] at hsync
    cases hsync

/-- The slave behind all messages has the cursor of the client. -/
theorem Leads.cursor_eq (hc : c.Leads o s) : s.cursor = c.cursor := by
  unfold Slave.cursor cursor
  rcases hc.status with ⟨hcopy, hkey, hgt⟩ | ⟨hsync, hkey, -⟩
  · have hne : c.lastKey ≠ [] := by
      intro hnil
      rw [hnil] at hgt
      exact absurd hgt (by decide)
    rw [hkey, if_neg hne, if_pos hcopy]
  · rw [if_pos hkey, if_neg (by rw [hsync]; decide)]

/-- The thread goes on behind the loop of `sync`. -/
theorem Leads.goOn {point : ClientPoint} (hc : c.Leads o s) (hhand : c.hand = none)
    (hsend : ∀ log, point ≠ .send log) (hcopy : c.status = .sync → point ≠ .copy) :
    Leads o { c with point := point } s where
  follows := by
    have hfollows := hc.follows
    rw [hhand] at hfollows
    rw [hand_eq_none hsend]
    exact hfollows
  past := hc.past
  seq_le := hc.seq_le
  slave_le := hc.slave_le
  status := hc.status.imp_right fun h => ⟨h.1, h.2.1, hcopy h.1⟩
  sends := fun log hpoint => absurd hpoint (hsend log)
  iter := hc.iter

/-- An entry about a key before the cursor is passed over, and the iterator with it. -/
theorem Leads.dropLog (hc : c.Leads o s) (ho : o.Valid) (hpoint : c.point = .sync)
    (hcopy : c.status = .copy) (hfind : c.findLog o.master.db = some log) (hlt : c.lastSeq < log.seq)
    (hle : log.seq ≤ o.number c.lastSeq + 1) (hkey : c.lastKey < log.key) :
    Leads o { c with lastSeq := log.seq, iter := none } s := by
  obtain ⟨hmem, hentry, hfollows⟩ := hc.found ho hpoint hfind hlt hle
  have hpos : log.seq ≠ 0 := by omega
  have hcursor : c.cursor < cursorAt log.key := by
    rw [cursor_of_copy hcopy]
    exact cursorAt_lt.mpr hkey
  constructor
  case follows =>
    have hpass := hfollows.pass hentry hcursor
    rw [Nat.sub_add_cancel (by omega)] at hpass
    show Replica.Follows ⟨_, o.number log.seq, c.cursor⟩ _ c.hand
    rw [Origin.number_of_ne hpos, hand, hpoint]
    exact hpass
  case past => exact hc.past.mono hlt.le
  case seq_le => exact (get_of_findLog ho.ships.logs hfind).2.2
  case slave_le => exact hc.slave_le.trans hlt.le
  case status => exact hc.status
  case sends =>
    intro log' h
    rw [show c.point = .send log' from h] at hpoint
    cases hpoint
  case iter => exact fun es hes => by cases hes

/-- An entry about a key behind the cursor is taken in hand. -/
theorem Leads.takeLog (hc : c.Leads o s) (ho : o.Valid) (hpoint : c.point = .sync)
    (hfind : c.findLog o.master.db = some log) (hlt : c.lastSeq < log.seq)
    (hle : log.seq ≤ o.number c.lastSeq + 1) (hkey : cursorAt log.key ≤ c.cursor) :
    Leads o { c with lastSeq := log.seq, point := .send log } s := by
  obtain ⟨hmem, hentry, hfollows⟩ := hc.found ho hpoint hfind hlt hle
  have hpos : log.seq ≠ 0 := by omega
  have hsucc : log.seq - 1 + 1 = log.seq := Nat.sub_add_cancel (by omega)
  constructor
  case follows =>
    have htake := hfollows.take hentry
    rw [hsucc] at htake
    show Replica.Follows ⟨_, o.number log.seq, c.cursor⟩ _ (some log.key)
    rw [Origin.number_of_ne hpos]
    exact htake
  case past => exact hc.past.mono hlt.le
  case seq_le => exact (get_of_findLog ho.ships.logs hfind).2.2
  case slave_le => exact hc.slave_le.trans hlt.le
  case status => exact hc.status.imp_right fun h => ⟨h.1, h.2.1, by simp⟩
  case sends =>
    intro log' h
    obtain rfl : log = log' := ClientPoint.send.inj h
    exact ⟨rfl, hsucc ▸ hentry, hmem, hkey⟩
  case iter =>
    intro es hes hcopy
    obtain ⟨db, hdb, heq⟩ := hc.iter es hes hcopy
    refine ⟨db, ⟨hdb.stored, hdb.ne_nil, ?_, hdb.key_ge, hdb.cursor_le, hdb.ahead⟩, heq⟩
    have hread := (hdb.fresh.rewind (m := log.seq - 1) (by omega)).read hentry hkey
    show o.source.Fresh db.content (o.number log.seq) _
    rw [Origin.number_of_ne hpos, ← hsucc]
    exact hread

theorem Waits.goOn {point : ClientPoint} (hc : c.Waits o) (hsend : ∀ log, point ≠ .send log)
    (hpast : point = .copy → o.master.Past o.base c.lastSeq) : Waits o { c with point := point } where
  atStart := hc.atStart
  iter := hc.iter
  point := hsend
  seq_le := hc.seq_le
  past := hpast

/-- An entry that `sync` does not pass over is not before the cursor. -/
theorem Leads.le_cursor (hc : c.Leads o s) (h : ¬ (c.status = .copy ∧ c.lastKey < log.key)) :
    cursorAt log.key ≤ c.cursor := by
  rcases hc.status with ⟨hcopy, -⟩ | ⟨hsync, -⟩
  · rw [cursor_of_copy hcopy]
    exact cursorAt_le.mpr (not_lt.mp fun hlt => h ⟨hcopy, hlt⟩)
  · rw [cursor_of_sync hsync]
    exact le_top

/-- **A turn of `sync`.** -/
theorem moves_syncTurn (ho : o.Valid) (hpoint : c.point = .sync)
    (hreg : ∀ log, c.findLog o.master.db = some log → c.Finds o.mark log)
    (hin : (c.syncTurn o.master.db).1.status ≠ .outOfSync) :
    c.Moves o o (c.syncTurn o.master.db) := by
  have hbound := ho.ships.bound
  have hhand : c.hand = none := by rw [hand, hpoint]
  rcases syncTurn_cases hin with ⟨hfind, hturn⟩ | ⟨log, hfind, hturn⟩
  · -- the binlog is read to its end
    rw [hturn]
    refine .silent id fun s _ hc => ?_
    rcases hc with hc | hc
    · exact Or.inl (hc.goOn c.behindSync_ne_send fun _ => past_of_findLog ho hc.seq_le hfind)
    · refine Or.inr (hc.goOn hhand c.behindSync_ne_send fun hsync => ?_)
      rw [behindSync, if_neg (by rw [hsync]; decide)]
      decide
  · have hfinds := hreg log hfind
    obtain ⟨hget, hpos, hle⟩ := get_of_findLog ho.ships.logs hfind
    rcases hturn with ⟨hcopy, hkey, hturn⟩ | ⟨hkey, hseq, hturn⟩
    · rw [hturn]
      refine .silent id fun s _ hc => ?_
      rcases hc with hc | hc
      · exact Or.inl ⟨hc.atStart, rfl, hc.point, hle, fun h => by rw [hpoint] at h; cases h⟩
      · refine Or.inr ?_
        rw [Finds, if_neg hc.not_atStart] at hfinds
        split at hfinds
        · rename_i hzero
          refine hc.dropLog ho hpoint hcopy hfind (by omega) ?_ hkey
          rw [hzero]
          exact hfinds
        · rename_i hne
          have hnext := hfinds hcopy hkey
          refine hc.dropLog ho hpoint hcopy hfind (by omega) ?_ hkey
          rw [Origin.number_of_ne hne, hnext]
    · refine ⟨fun s hs => hs.of_atStart atStart_of_syncTurn, fun s hs hc => ?_⟩
      rcases hc with hc | hc
      · -- nothing has been copied, so that the entry is passed over
        rw [Finds, if_pos hc.atStart] at hfinds
        refine absurd ⟨hc.atStart.1, ?_⟩ hkey
        obtain ⟨b, rest, hcons⟩ := List.exists_cons_of_ne_nil hfinds
        rw [hc.atStart.2, hcons]
        exact List.nil_lt_cons b rest
      · have hlt : c.lastSeq < log.seq ∧ log.seq ≤ o.number c.lastSeq + 1 := by
          rw [Finds, if_neg hc.not_atStart] at hfinds
          by_cases hzero : c.lastSeq = 0
          · rw [if_pos hzero] at hfinds
            rw [hzero]
            exact ⟨hpos, hfinds⟩
          · have hnext := hseq.resolve_left hzero
            have hseq_le := hc.seq_le
            rw [Nat.mod_eq_of_lt (by omega)] at hnext
            rw [Origin.number_of_ne hzero]
            omega
        have hlead := hc.takeLog ho hpoint hfind hlt.1 hlt.2 (hc.le_cursor hkey)
        have htype := (ho.ships.named log (hc.found ho hpoint hfind hlt.1 hlt.2).1).1
        rcases hturn with hmirror | hturn
        · rw [htype] at hmirror
          cases hmirror
        · rw [hturn]
          exact ⟨hs.of_atStart id, Or.inr hlead⟩

/-! ## Sending an entry -/

/-- An entry of a record that is set is sent with the value of its key. -/
theorem sendLog_of_sets (db : Db) (c : Client) (h : log.cmd.sets = true) :
    c.sendLog db log =
      ({ c with point := c.behindSync },
        ((db.get log.key).map fun val => (⟨log, some val.image⟩ : Message)).toList) := by
  have hcmd : log.cmd = .kset ∨ log.cmd = .hset ∨ log.cmd = .zset := by
    simpa [BinlogCommand.sets] using h
  unfold sendLog
  rcases hcmd with hcmd | hcmd | hcmd
  all_goals
    rw [hcmd]
    cases db.get log.key <;> rfl

theorem sendLog_of_removes (db : Db) (c : Client) {k : Bytes} (h : entryCommand false k = some log.cmd) :
    c.sendLog db log = ({ c with point := c.behindSync }, [⟨log, none⟩]) := by
  have hcmd : log.cmd = .kdel ∨ log.cmd = .hdel ∨ log.cmd = .zdel := by
    unfold entryCommand at h
    obtain ⟨t, -, h⟩ := Option.bind_eq_some_iff.mp h
    split at h
    · exact Or.inl (Option.some.inj h).symm
    · split at h
      · exact Or.inr (Or.inl (Option.some.inj h).symm)
      · split at h
        · exact Or.inr (Or.inr (Option.some.inj h).symm)
        · cases h
  unfold sendLog
  rcases hcmd with hcmd | hcmd | hcmd
  all_goals
    rw [hcmd]

/-- What the slave behind all messages is when it has read the last one. -/
theorem Leads.resumes (hc : c.Leads o s) (hhand : c.hand = none) (hstore : s.db.IsStore)
    (hseq : s.lastSeq = c.lastSeq) : s.Resumes o where
  store := hstore
  seq_le := by
    rw [hseq]
    exact hc.seq_le
  key_gt := by
    intro hne
    rcases hc.status with ⟨-, hkey, hgt⟩ | ⟨-, hkey, -⟩
    · rw [hkey]
      exact hgt
    · exact absurd hkey hne
  follows := by
    intro _
    have hfollows := hc.follows
    rwa [hhand, ← hc.cursor_eq, ← hseq] at hfollows
  past := by
    intro _
    rw [hseq]
    exact hc.past

theorem Leads.awaits (hc : c.Leads o s) (hhand : c.hand = none) (hstore : s.db.IsStore)
    (hseq : s.lastSeq = c.lastSeq) : c.Awaits o s :=
  ⟨hc.resumes hhand hstore hseq, fun hstart => absurd hstart hc.not_atStart⟩

/-- The client and the slave when an entry has been sent and carried out. -/
theorem Leads.sent (hc : c.Leads o s) {db : Db}
    (hfollows : Replica.Follows ⟨db.content, o.number c.lastSeq, c.cursor⟩ o.source none) {seq : ℕ}
    (hseq : seq ≤ c.lastSeq) :
    Leads o { c with point := c.behindSync } { s with db := db, lastSeq := seq } where
  follows := by
    rw [hand_eq_none c.behindSync_ne_send]
    exact hfollows
  past := hc.past
  seq_le := hc.seq_le
  slave_le := hseq
  status := by
    refine hc.status.imp_right fun h => ⟨h.1, h.2.1, ?_⟩
    show c.behindSync ≠ .copy
    rw [behindSync, if_neg (by rw [h.1]; decide)]
    decide
  sends := fun log' h => absurd h (c.behindSync_ne_send log')
  iter := hc.iter

/-- The slave carries out an entry. -/
theorem Leads.reads_log (hc : c.Leads o s) (hs : c.Awaits o s) (hpoint : c.point = .send log)
    (hmem : log.type = .sync) {m : Message} (hm : m.log = log)
    (hreplay : ∃ ws, s.replay m = some ws ∧ Db.IsStore (s.db.apply ws) ∧
      Replica.Follows ⟨Db.content (s.db.apply ws), o.number c.lastSeq, c.cursor⟩ o.source none) :
    s.Reads Slave.Fits (Awaits o { c with point := c.behindSync }) (Serves o { c with point := c.behindSync })
      [m] := by
  obtain ⟨ws, hws, hstore, hfollows⟩ := hreplay
  have hseq := (hc.sends log hpoint).seq
  have hproc : s.proc m = { s with db := s.db.apply ws, lastSeq := c.lastSeq } := by
    unfold Slave.proc
    rw [hm, hmem]
    show s.procSync m = _
    unfold Slave.procSync
    rw [hws, hm, hmem, hseq]
    rfl
  refine .one (hs.of_atStart id) fun _ => ?_
  rw [hproc]
  have hsent := hc.sent hfollows le_rfl
  exact ⟨hsent.awaits (hand_eq_none c.behindSync_ne_send) hstore rfl, Or.inr hsent⟩

/-- **An entry is sent.** -/
theorem moves_sendLog (ho : o.Valid) (hpoint : c.point = .send log) :
    c.Moves o o (c.sendLog o.master.db log) := by
  refine ⟨fun s hs => hs.of_atStart ?_, fun s hs hc => ?_⟩
  · rw [fst_sendLog]
    exact id
  · have hc : c.Leads o s := hc.resolve_left fun hwaits => hwaits.point log hpoint
    obtain ⟨hseq, hentry, hmem, hle⟩ := hc.sends log hpoint
    obtain ⟨htype, hcmd, hnamed⟩ := ho.ships.named log hmem
    have hpos : log.seq ≠ 0 := by
      have := (Source.entry_le_last hentry).1
      omega
    have hnumber : o.number c.lastSeq = log.seq := by rw [hseq, Origin.number_of_ne hpos]
    have hfollows := hc.follows
    rw [hand, hpoint, hnumber] at hfollows
    have hvalue : o.source.content log.key = (o.master.db.get log.key).map Value.image :=
      Db.content_of_isReplicated hnamed.isReplicated _
    cases hsets : log.cmd.sets with
    | true =>
        rw [hsets] at hcmd
        have hentry : o.source.entry log.seq = some (log.key, true) := by
          rw [hentry, Binlog.entry, hsets]
        rw [sendLog_of_sets _ _ hsets]
        cases hget : o.master.db.get log.key with
        | none =>
            -- removed by now: the entry of the removal is still to come
            rw [hget] at hvalue
            have hskip := hfollows.skip ho.ships.honest hentry hvalue
            rw [← hnumber] at hskip
            exact ⟨hs.of_atStart id, Or.inr (hc.sent hskip hc.slave_le)⟩
        | some val =>
            rw [hget] at hvalue
            have hrec : IsRecord log.key val.image :=
              ho.ships.stored.record hvalue (ho.ships.ne_nil _ _ hget)
            obtain ⟨ws, hws, hstore, hcontent⟩ :=
              Slave.replay_set (m := ⟨log, some val.image⟩) hs.resumes.store hcmd rfl hrec
            refine hc.reads_log hs hpoint htype rfl ⟨ws, hws, hstore, ?_⟩
            have hput := hfollows.put hle
            rw [hvalue] at hput
            rw [hcontent, hnumber]
            exact hput
    | false =>
        rw [hsets] at hcmd
        have hentry : o.source.entry log.seq = some (log.key, false) := by
          rw [hentry, Binlog.entry, hsets]
        rw [sendLog_of_removes _ _ hcmd]
        obtain ⟨ws, hws, hstore, hcontent⟩ :=
          Slave.replay_remove (m := ⟨log, none⟩) hs.resumes.store hcmd hnamed
        refine hc.reads_log hs hpoint htype rfl ⟨ws, hws, hstore, ?_⟩
        rw [hcontent, hnumber]
        exact hfollows.remove ho.ships.honest hentry hle

end Client

end Ssdb
