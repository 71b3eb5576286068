/-
# The thread of the master and a queue of the slave

Behind all messages on the way, the queue of the slave is that of the master at some version, as far as
it is copied (`Client.Mirrors`).  Each turn of the thread keeps this, provided that what it passes over
or sends fits together with what is copied (`QueueWatch.Passes`, `QueueWatch.Ships`,
`QueueWatch.Copies`), and that the slave can carry out what it reads (`Slave.CanRead`).
-/
import DoudizhuBackend.Ssdb.QueueMaster
import DoudizhuBackend.Ssdb.ReplicaCopy

namespace Ssdb

/-! ## What is copied -/

/-- The item with the number does not lie behind the key. -/
def copiedUpTo (name key : Bytes) (n : ℕ) : Bool := encodeQitemKey name n ≤ key

/-- The items that the slave has been sent; all of them when the copy is over. -/
def Client.copied (name : Bytes) (c : Client) (n : ℕ) : Bool := c.status = .copy → copiedUpTo name c.lastKey n

theorem encodeQitemKey_lt (name : Bytes) {m n : ℕ} (h : m < n) (hn : n < 2 ^ 64) :
    encodeQitemKey name m < encodeQitemKey name n := by
  have hlt : (DataType.QUEUE :: lenByte name :: name) ++ bigEndian m <
      (DataType.QUEUE :: lenByte name :: name) ++ bigEndian n := List.append_left_lt (bigEndian_lt h hn)
  exact hlt

theorem copiedUpTo_nil (name : Bytes) (n : ℕ) : ¬ copiedUpTo name [] n := by
  have hlt : ([] : Bytes) < encodeQitemKey name n := List.nil_lt_cons _ _
  simpa [copiedUpTo] using hlt

/-- A range up to a limit is a range. -/
theorem exists_filter_range' {p : ℕ → Bool} (hp : ∀ m n, m ≤ n → n < 2 ^ 64 → p n → p m) (front : ℕ) :
    ∀ len, front + len ≤ 2 ^ 64 →
      ∃ len', len' ≤ len ∧ (List.range' front len).filter p = List.range' front len' := by
  intro len
  induction len with
  | zero => exact fun _ => ⟨0, le_rfl, rfl⟩
  | succ len ih =>
      intro hlen
      obtain ⟨len', hle, heq⟩ := ih (by omega)
      rw [List.range'_1_concat, List.filter_append]
      cases hlast : p (front + len) with
      | false => exact ⟨len', by omega, by simp [heq, hlast]⟩
      | true =>
          refine ⟨len + 1, le_rfl, ?_⟩
          have hall : (List.range' front len).filter p = List.range' front len := by
            refine List.filter_eq_self.mpr fun m hm => hp m (front + len) ?_ (by omega) hlast
            have := (List.mem_range'_1.mp hm).2
            omega
          rw [hall, List.filter_singleton, hlast, List.range'_1_concat]
          rfl

namespace Client

variable {name : Bytes} {c : Client}

theorem copied_mono (name : Bytes) (c : Client) : ∀ m n, m ≤ n → n < 2 ^ 64 → c.copied name n →
    c.copied name m := by
  intro m n hle hn hcopied
  simp only [copied, copiedUpTo, decide_eq_true_eq] at hcopied ⊢
  intro hcopy
  refine le_trans ?_ (hcopied hcopy)
  rcases hle.lt_or_eq with hlt | rfl
  · exact (encodeQitemKey_lt name hlt hn).le
  · exact le_rfl

theorem copied_of_copy (h : c.status = .copy) : c.copied name = copiedUpTo name c.lastKey := by
  funext n
  simp [copied, h]

theorem copied_of_sync (h : c.status = .sync) (n : ℕ) : c.copied name n := by
  simp [copied, h]

theorem not_copied_of_atStart (h : c.AtStart) (n : ℕ) : ¬ c.copied name n := by
  rw [copied_of_copy h.1, h.2]
  exact copiedUpTo_nil name n

/-- The version that the slave has behind all messages: an entry that is to be sent is not yet there. -/
def version (c : Client) : ℕ :=
  match c.point with
  | .send _ => c.lastSeq - 1
  | _ => c.lastSeq

theorem version_of_ne_send (h : ∀ log, c.point ≠ .send log) : c.version = c.lastSeq := by
  unfold version
  split
  · exact absurd ‹_› (h _)
  · rfl

/-- **Behind all messages the slave has the items that are copied.** -/
def Mirrors (x : QueueWatch) (name : Bytes) (c : Client) (s : Slave) : Prop :=
  ∃ front items, s.db.IsQueue name front items ∧
    (x.history name).Mirrors c.version (c.copied name) items

end Client

/-! ## What fits together -/

/-- The slave can carry out what the message says about the queue: it has room, and its items have the
numbers of those of the master where one of them is named. -/
def Slave.CanRead (past : ℕ → Db) (name : Bytes) (s : Slave) (m : Message) : Prop :=
  match queueEntry name m.log with
  | .push .front _ => 0 < room s.db name .front
  | .push .back _ => 0 < room s.db name .back
  | .set _ => qgetUint64 s.db name qfrontSeq = qgetUint64 (past m.log.seq) name qfrontSeq
  | _ => True

namespace QueueWatch

/-- The numbers at a version, as far as they are copied. -/
def copiedNumbers (x : QueueWatch) (name : Bytes) (c : Client) (n : ℕ) : List ℕ :=
  (queueNumbers (x.past n) name).filter (c.copied name)

/-- No copied item is taken by an entry that is passed over. -/
def Passes (x : QueueWatch) (name : Bytes) (c : Client) (log : Binlog) : Prop :=
  match queueEntry name log with
  | .pop _ => x.copiedNumbers name c log.seq = x.copiedNumbers name c (log.seq - 1)
  | _ => True

/-- An item that was pushed is still there, and one that was taken is at the end of what is copied. -/
def Ships (x : QueueWatch) (name : Bytes) (c : Client) (log : Binlog) : Prop :=
  match queueEntry name log with
  | .push _ _ => (x.world.master.db.get log.key).isSome
  | .pop e => x.copiedNumbers name c log.seq = e.rest (x.copiedNumbers name c (log.seq - 1))
  | _ => True

/-- The next record is the next item, if it is one; in the end there is no item left. -/
def Copies (x : QueueWatch) (name : Bytes) (c : Client) : Prop :=
  match c.entries x.world.master.db with
  | (t :: rest, _) :: _ =>
      if signedChar DataType.MAX_PREFIX < signedChar t then
        x.copiedNumbers name c c.lastSeq = queueNumbers (x.past c.lastSeq) name
      else
        x.copiedNumbers name { c with lastKey := t :: rest } c.lastSeq =
          x.copiedNumbers name c c.lastSeq ++
            (if t = DataType.QUEUE then itemNumber name (t :: rest) else none).toList
  | ([], _) :: _ => True
  | [] => x.copiedNumbers name c c.lastSeq = queueNumbers (x.past c.lastSeq) name

/-- The records of an iterator behind a key, with values that are recent at a version. -/
structure Lists (x : QueueWatch) (name : Bytes) (m : ℕ) (key : Bytes) (es : List (Bytes × Value)) : Prop where
  behind : ∀ p ∈ es, key < p.1
  sorted : es.Pairwise fun p q => p.1 < q.1
  recent : ∀ p ∈ es, p.1.head? = some DataType.QUEUE → ∀ n, itemNumber name p.1 = some n →
    p.1 = encodeQitemKey name n ∧ (x.history name).Recent m n p.2.image

/-- What the thread of the master keeps. -/
structure Tracks (x : QueueWatch) (base : ℕ) (name : Bytes) (c : Client) : Prop where
  status : c.status = .copy ∨ c.status = .sync
  seq_le : c.lastSeq ≤ x.world.master.lastSeq
  copying : c.point = .copy → c.status = .copy
  begun : ¬ c.AtStart ∨ c.point = .copy → base ≤ c.lastSeq
  atStart : c.AtStart → c.iter = none ∧ ∀ log, c.point ≠ .send log
  sends : ∀ log, c.point = .send log → log.seq = c.lastSeq ∧ base < log.seq ∧
    x.world.master.db.get (encodeSeqKey log.seq) = some (.log log) ∧ (c.status = .copy → log.key ≤ c.lastKey)
  iter : ∀ es, c.iter = some es → c.status = .copy → x.Lists name c.lastSeq c.lastKey es

/-! ## The master goes on -/

/-- What a step keeps of the versions and of the binlog. -/
structure Grows (x x' : QueueWatch) : Prop where
  last_le : x.world.master.lastSeq ≤ x'.world.master.lastSeq
  past : ∀ n ≤ x.world.master.lastSeq, x'.past n = x.past n
  logs : ∀ n ≤ x.world.master.lastSeq,
    x'.world.master.db.get (encodeSeqKey n) = x.world.master.db.get (encodeSeqKey n)

variable {x x' : QueueWatch} {base : ℕ} {name : Bytes} {c : Client} {s : Slave} {log : Binlog}

theorem Grows.history (h : x.Grows x') (name : Bytes) : (x.history name).Grows (x'.history name) where
  last_le := h.last_le
  past := by
    intro n hn
    show numbered (x'.past n) name = numbered (x.past n) name
    rw [h.past n hn]

theorem Lists.grows {m : ℕ} {key : Bytes} {es : List (Bytes × Value)} (hes : x.Lists name m key es)
    (h : x.Grows x') : x'.Lists name m key es where
  behind := hes.behind
  sorted := hes.sorted
  recent := fun p hp hhead n hn => (hes.recent p hp hhead n hn).imp_right fun hv => hv.grows (h.history name)

theorem Tracks.grows (hc : x.Tracks base name c) (h : x.Grows x') : x'.Tracks base name c where
  status := hc.status
  seq_le := hc.seq_le.trans h.last_le
  copying := hc.copying
  begun := hc.begun
  atStart := hc.atStart
  sends := by
    intro log hpoint
    obtain ⟨hseq, hbase, hget, hkey⟩ := hc.sends log hpoint
    exact ⟨hseq, hbase, by rw [h.logs _ (hseq ▸ hc.seq_le), hget], hkey⟩
  iter := fun es hes hcopy => (hc.iter es hes hcopy).grows h

theorem Tracks.version_le (hc : x.Tracks base name c) : c.version ≤ x.world.master.lastSeq := by
  have hle := hc.seq_le
  unfold Client.version
  split <;> omega

end QueueWatch

namespace Client

variable {x x' : QueueWatch} {base : ℕ} {name : Bytes} {c : Client} {s : Slave} {log : Binlog}

theorem Mirrors.grows (hs : c.Mirrors x name s) (hc : x.Tracks base name c) (h : x.Grows x') :
    c.Mirrors x' name s := by
  obtain ⟨front, items, hq, hitems⟩ := hs
  exact ⟨front, items, hq, hitems.grows (h.history name) hc.version_le⟩

/-- The same version with the same items, for another state of the thread. -/
theorem Mirrors.of_eq {c' : Client} (hs : c.Mirrors x name s) (hversion : c'.version = c.version)
    (hcopied : c'.copied name = c.copied name) : c'.Mirrors x name s := by
  obtain ⟨front, items, hq, hitems⟩ := hs
  exact ⟨front, items, hq, by rwa [hversion, hcopied]⟩

/-- A turn of the thread: what it keeps, and what the slave behind its messages has. -/
structure Turned (x : QueueWatch) (base : ℕ) (name : Bytes) (c : Client) (r : Client × List Message) :
    Prop where
  tracks : x.Tracks base name r.1
  seqs : ∀ m ∈ r.2, m.log.seq ≤ x.world.master.lastSeq
  reads : ∀ s, c.Mirrors x name s →
    s.Reads (Slave.CanRead x.past name) (fun _ => True) (r.1.Mirrors x name) r.2

/-- A turn that sends nothing. -/
theorem Turned.silent {c' : Client} (hc' : x.Tracks base name c')
    (hmirrors : ∀ s, c.Mirrors x name s → c'.Mirrors x name s) : Turned x base name c (c', []) where
  tracks := hc'
  seqs := by simp
  reads := fun s hs => ⟨trivial, hmirrors s hs⟩

/-- A turn that sends one message. -/
theorem Turned.one {c' : Client} {m : Message} (hc' : x.Tracks base name c')
    (hseq : m.log.seq ≤ x.world.master.lastSeq)
    (hmirrors : ∀ s, c.Mirrors x name s → s.CanRead x.past name m → c'.Mirrors x name (s.proc m)) :
    Turned x base name c (c', [m]) where
  tracks := hc'
  seqs := by simpa using hseq
  reads := fun s hs => .one trivial fun hm => ⟨trivial, hmirrors s hs hm⟩

/-- A message that is not about the queue. -/
theorem Mirrors.proc_other (hs : c.Mirrors x name s) {m : Message} (hm : queueEntry name m.log = .other) :
    c.Mirrors x name (s.proc m) := by
  obtain ⟨front, items, hq, hitems⟩ := hs
  exact ⟨front, items, Slave.proc_other hq hm, hitems⟩

/-! ## A turn of `sync` -/

/-- The entry behind a version. -/
theorem records_of_get (hx : x.Recorded name base) {n : ℕ} (hn : base ≤ n)
    (hlt : n < x.world.master.lastSeq) {log : Binlog}
    (hget : x.world.master.db.get (encodeSeqKey (n + 1)) = some (.log log)) :
    log.Records name (numbered (x.past n) name) (numbered (x.past (n + 1)) name) := by
  obtain ⟨l, hl, -, hrecords⟩ := hx.entry n hn hlt
  rw [hget] at hl
  rwa [Value.log.inj (Option.some.inj hl)]

/-- When a copy has begun, `sync` finds the next entry. -/
theorem seq_of_findLog (hx : x.Recorded name base) (hc : x.Tracks base name c) (hstart : ¬ c.AtStart)
    (hfind : c.findLog x.world.master.db = some log) (hfinds : c.Finds 0 log) : log.seq = c.lastSeq + 1 := by
  obtain ⟨hget, hpos, hle⟩ := get_of_findLog hx.logs hfind
  have hbound := hx.bound
  have hseq_le := hc.seq_le
  rw [Finds, if_neg hstart] at hfinds
  rcases Nat.eq_zero_or_pos c.lastSeq with hzero | hlast
  · rw [if_pos hzero] at hfinds
    omega
  · rw [findLog, if_neg (by omega), Nat.mod_eq_of_lt (by omega)] at hfind
    rcases hseq_le.lt_or_eq with hlt | heq
    · obtain ⟨l, hl, hseq, -⟩ := hx.entry c.lastSeq (hc.begun (Or.inl hstart)) hlt
      rw [findNext_of_get hl] at hfind
      rw [← Option.some.inj hfind, hseq]
    · -- there is no entry behind the last one
      have := le_of_findNext hx.logs (by omega) (by omega) hfind
      omega

theorem status_of_behindSync (h : c.behindSync = .copy) : c.status = .copy := by
  unfold behindSync at h
  split at h
  · assumption
  · cases h

theorem Tracks.goOn (hc : x.Tracks base name c) {point : ClientPoint}
    (hcopy : point = .copy → c.status = .copy ∧ base ≤ c.lastSeq) (hsend : ∀ log, point ≠ .send log) :
    x.Tracks base name { c with point := point } where
  status := hc.status
  seq_le := hc.seq_le
  copying := fun hpoint => (hcopy hpoint).1
  begun := by
    rintro (hstart | hpoint)
    · exact hc.begun (Or.inl hstart)
    · exact (hcopy hpoint).2
  atStart := fun hstart => ⟨(hc.atStart hstart).1, hsend⟩
  sends := fun log hpoint => absurd hpoint (hsend log)
  iter := hc.iter

/-- An entry that is passed over is about no copied item, or takes none of them. -/
theorem Mirrors.passLog (hs : c.Mirrors x name s) (hx : x.Recorded name base) (hbase : base ≤ c.lastSeq)
    (hpoint : c.point = .sync) (hcopy : c.status = .copy) (hseq : log.seq = c.lastSeq + 1)
    (hle : log.seq ≤ x.world.master.lastSeq) (hget : x.world.master.db.get (encodeSeqKey log.seq) = some (.log log))
    (hkey : c.lastKey < log.key) (hpass : x.Passes name c log) :
    Mirrors x name { c with lastSeq := log.seq, iter := none } s := by
  obtain ⟨front, items, hq, hitems⟩ := hs
  rw [hseq] at hget
  have hrecords := records_of_get hx hbase (by omega) hget
  have hversion : c.version = c.lastSeq := version_of_ne_send (by simp [hpoint])
  rw [hversion] at hitems
  have hpassed : (x.history name).Mirrors (c.lastSeq + 1) (c.copied name) items := by
    refine hitems.pass (show c.lastSeq < x.world.master.lastSeq by omega) hrecords.leads (fun k hk hgives => ?_)
      fun e he => ?_
    · rw [copied_of_copy hcopy] at hk
      rw [hrecords.keyed k hgives] at hkey
      exact absurd hkey (not_lt.mpr (by simpa [copiedUpTo] using hk))
    · unfold QueueWatch.Passes at hpass
      rw [he, hseq] at hpass
      exact hpass
  refine ⟨front, items, hq, ?_⟩
  have hversion' : version { c with lastSeq := log.seq, iter := none } = c.lastSeq + 1 := by
    rw [version_of_ne_send (by simp [hpoint])]
    exact hseq
  rw [hversion']
  exact hpassed

/-- **A turn of `sync`.** -/
theorem turned_syncTurn (hx : x.Recorded name base) (hc : x.Tracks base name c) (hpoint : c.point = .sync)
    (hreg : ∀ log ∈ c.findLog x.world.master.db,
      c.Finds 0 log ∧ (c.status = .copy → c.lastKey < log.key → x.Passes name c log)) :
    Turned x base name c (c.syncTurn x.world.master.db) := by
  have hbound := hx.bound
  have hseq_le := hc.seq_le
  have hversion : c.version = c.lastSeq := version_of_ne_send (by simp [hpoint])
  unfold syncTurn
  cases hfind : c.findLog x.world.master.db with
  | none =>
      -- the binlog is read to its end
      have hbase : base ≤ c.lastSeq := by
        rcases hx.last with hzero | ⟨l, hl⟩
        · have := hx.base_le
          omega
        · by_contra hlt
          have hnone := get_of_findLog_eq_none hx.logs hx.bound hseq_le hfind
            (n := x.world.master.lastSeq) (by have := hx.base_le; omega) hx.bound
          rw [hnone] at hl
          cases hl
      refine .silent (Tracks.goOn hc (fun h => ⟨status_of_behindSync h, hbase⟩) c.behindSync_ne_send)
        fun s hs => hs.of_eq ?_ rfl
      rw [hversion, version_of_ne_send c.behindSync_ne_send]
  | some log =>
      obtain ⟨hfinds, hpass⟩ := hreg log hfind
      obtain ⟨hget, hpos, hle⟩ := get_of_findLog hx.logs hfind
      dsimp only
      by_cases hdrop : c.status = .copy ∧ c.lastKey < log.key
      · rw [if_pos hdrop]
        refine .silent ?_ fun s hs => ?_
        · constructor
          case status => exact hc.status
          case seq_le => exact hle
          case copying => exact hc.copying
          case begun =>
            rintro (hstart | hcopy)
            · have hnext := seq_of_findLog hx hc hstart hfind hfinds
              have := hc.begun (Or.inl hstart)
              show base ≤ log.seq
              omega
            · rw [show c.point = .copy from hcopy] at hpoint
              cases hpoint
          case atStart => exact fun hstart => ⟨rfl, (hc.atStart hstart).2⟩
          case sends =>
            intro log' h
            rw [show c.point = .send log' from h] at hpoint
            cases hpoint
          case iter => exact fun es hes => by cases hes
        · by_cases hstart : c.AtStart
          · -- nothing is copied yet
            obtain ⟨front, items, hq, hitems⟩ := hs
            exact ⟨front, items, hq, hitems.of_nil (not_copied_of_atStart hstart) _⟩
          · exact hs.passLog hx (hc.begun (Or.inl hstart)) hpoint hdrop.1
              (seq_of_findLog hx hc hstart hfind hfinds) hle hget hdrop.2 (hpass hdrop.1 hdrop.2)
      · have hstart : ¬ c.AtStart := by
          intro hstart
          rw [Finds, if_pos hstart] at hfinds
          obtain ⟨b, rest, hcons⟩ := List.exists_cons_of_ne_nil hfinds
          refine hdrop ⟨hstart.1, ?_⟩
          rw [hstart.2, hcons]
          exact List.nil_lt_cons b rest
        have hnext := seq_of_findLog hx hc hstart hfind hfinds
        have hbase := hc.begun (Or.inl hstart)
        have hrecords := records_of_get hx hbase (by omega) (hnext ▸ hget)
        rw [if_neg hdrop, if_neg (by rw [Nat.mod_eq_of_lt (by omega)]; omega), hrecords.sync, if_neg (by simp)]
        refine .silent ?_ fun s hs => hs.of_eq ?_ rfl
        · constructor
          case status => exact hc.status
          case seq_le => exact hle
          case copying => exact fun h => by cases h
          case begun =>
            intro _
            show base ≤ log.seq
            omega
          case atStart => exact fun h => absurd h hstart
          case sends =>
            intro log' h
            obtain rfl := ClientPoint.send.inj h
            exact ⟨rfl, by omega, hget, fun hcopy => not_lt.mp fun hlt => hdrop ⟨hcopy, hlt⟩⟩
          case iter =>
            intro es hes hcopy
            have hlists := hc.iter es hes hcopy
            refine ⟨hlists.behind, hlists.sorted, fun p hp hhead n hn => ?_⟩
            obtain ⟨hkey, hrecent⟩ := hlists.recent p hp hhead n hn
            -- the entry is about a key before the iterator
            have hgives : ¬ (queueEntry name log).Gives n := by
              intro hgives
              have hlt := hlists.behind p hp
              rw [hkey, ← hrecords.keyed n hgives] at hlt
              exact hdrop ⟨hcopy, hlt⟩
            refine ⟨hkey, ?_⟩
            show (x.history name).Recent log.seq n p.2.image
            rw [hnext]
            exact hrecent.succ (show c.lastSeq < x.world.master.lastSeq by omega)
              (hrecords.leads.item_cases hgives)
        · rw [hversion]
          show log.seq - 1 = c.lastSeq
          omega

/-! ## Sending an entry -/

/-- An entry that gives an item is sent with what lies under its key. -/
theorem sendLog_of_gives (db : Db) (c : Client) {n : ℕ} (h : (queueEntry name log).Gives n) :
    c.sendLog db log =
      ({ c with point := c.behindSync },
        ((db.get log.key).map fun val => (⟨log, some val.image⟩ : Message)).toList) := by
  have hcmd : log.cmd = .qpushFront ∨ log.cmd = .qpushBack ∨ log.cmd = .qset := by
    unfold queueEntry at h
    cases hcmd : log.cmd <;> rw [hcmd] at h <;> first | exact h.elim | simp
    all_goals
      dsimp only at h
      split at h <;> exact h.elim
  unfold sendLog
  rcases hcmd with hcmd | hcmd | hcmd
  all_goals
    rw [hcmd]
    cases db.get log.key <;> rfl

theorem sendLog_of_pop (db : Db) (c : Client) {e : ListEnd} (h : queueEntry name log = .pop e) :
    c.sendLog db log = ({ c with point := c.behindSync }, [⟨log, none⟩]) := by
  have hcmd : log.cmd = .qpopFront ∨ log.cmd = .qpopBack := by
    cases e with
    | front => exact Or.inl (queueEntry_pop (e := .front).mp h).1
    | back => exact Or.inr (queueEntry_pop (e := .back).mp h).1
  unfold sendLog
  rcases hcmd with hcmd | hcmd <;> rw [hcmd]

/-- What is sent is the entry, if anything. -/
theorem sendLog_messages (db : Db) (c : Client) (log : Binlog) :
    (c.sendLog db log).2 = [] ∨ ∃ val, (c.sendLog db log).2 = [⟨log, val⟩] := by
  unfold sendLog
  cases db.get log.key <;> cases log.cmd <;> first | exact Or.inl rfl | exact Or.inr ⟨_, rfl⟩

/-- The place of a number in what is copied. -/
theorem copied_place {past : Db} {front : ℕ} {items : List Bytes} (hq : past.IsQueue name front items) {n : ℕ}
    (hn : n ∈ (queueNumbers past name).filter (c.copied name)) :
    front ≤ n ∧ ∀ j, ((queueNumbers past name).filter (c.copied name))[j]? = some n ↔ j = n - front := by
  rw [hq.queueNumbers_eq] at hn ⊢
  have hlen : front + items.length ≤ 2 ^ 64 := by
    rcases eq_or_ne items [] with rfl | hne
    · simp at hn
    · have := hq.upper hne
      simp only [qitemMaxSeq] at this
      omega
  obtain ⟨len, hle, heq⟩ := exists_filter_range' (copied_mono name c) front items.length hlen
  rw [heq] at hn ⊢
  obtain ⟨hlow, hhigh⟩ := List.mem_range'_1.mp hn
  refine ⟨hlow, fun j => ?_⟩
  rw [List.getElem?_eq_some_iff]
  simp only [List.length_range', List.getElem_range', Nat.one_mul]
  constructor
  · rintro ⟨-, h⟩
    omega
  · rintro rfl
    exact ⟨by omega, by omega⟩

/-- What the slave has when it has read the entry. -/
theorem Mirrors.sendLog (hs : c.Mirrors x name s) (hx : x.Recorded name base) (hc : x.Tracks base name c)
    (hpoint : c.point = .send log) (hships : x.Ships name c log) :
    s.Reads (Slave.CanRead x.past name) (fun _ => True)
      (fun s => ∃ front items, s.db.IsQueue name front items ∧
        (x.history name).Mirrors log.seq (c.copied name) items)
      (c.sendLog x.world.master.db log).2 := by
  obtain ⟨hseq, hbase, hget, hbefore⟩ := hc.sends log hpoint
  have hle := hc.seq_le
  have hsucc : log.seq - 1 + 1 = log.seq := by omega
  have hlt : log.seq - 1 < (x.history name).last := show log.seq - 1 < x.world.master.lastSeq by omega
  have hrecords := records_of_get hx (n := log.seq - 1) (by omega) hlt (by rwa [hsucc])
  have hleads := hrecords.leads
  have hversion : c.version = log.seq - 1 := by
    rw [version, hpoint, hseq]
  obtain ⟨front, items, hq, hitems⟩ := hs
  rw [hversion] at hitems
  have hgoal : ∀ ys, (x.history name).Mirrors (log.seq - 1 + 1) (c.copied name) ys →
      (x.history name).Mirrors log.seq (c.copied name) ys := by
    rw [hsucc]
    exact fun ys h => h
  cases hentry : queueEntry name log with
  | other =>
      rw [hentry] at hleads
      have hpass := hgoal _ (hitems.pass hlt hleads (fun k _ h => h) fun e he => by cases he)
      rcases sendLog_messages x.world.master.db c log with hnil | ⟨val, hone⟩
      · rw [hnil]
        exact ⟨trivial, front, items, hq, hpass⟩
      · rw [hone]
        exact .one trivial fun _ => ⟨trivial, front, items, Slave.proc_other hq hentry, hpass⟩
  | push e n =>
      rw [hentry] at hleads
      have hkey := hrecords.keyed n (by rw [hentry]; exact rfl)
      have hnumber : itemNumber name log.key = some n := by
        cases e with
        | front => exact (queueEntry_push (e := .front).mp hentry).2
        | back => exact (queueEntry_push (e := .back).mp hentry).2
      obtain ⟨-, hmin, hmax⟩ := decode_of_itemNumber hnumber
      have hcopied : c.copied name n := by
        simp only [copied, copiedUpTo, decide_eq_true_eq]
        intro hcopy
        rw [← hkey]
        exact hbefore hcopy
      unfold QueueWatch.Ships at hships
      rw [hentry] at hships
      obtain ⟨val, hval⟩ := Option.isSome_iff_exists.mp hships
      have hlast : ((x.history name).past (x.history name).last).item n = some val.image := by
        rw [hx.item_last hmin hmax, ← hkey, hval]
        rfl
      rw [sendLog_of_gives _ _ (n := n) (by rw [hentry]; exact rfl), hval]
      refine .one trivial fun hcan => ⟨trivial, ?_⟩
      unfold Slave.CanRead at hcan
      dsimp only at hcan
      rw [hentry] at hcan
      have hpushed : ∃ front', Db.IsQueue (s.proc ⟨log, some val.image⟩).db name front'
          (e.push val.image items) := by
        cases e with
        | front => exact Slave.proc_push (e := .front) hq hentry rfl (Or.inl hrecords.sync) hcan
        | back => exact Slave.proc_push (e := .back) hq hentry rfl (Or.inl hrecords.sync) hcan
      obtain ⟨front', hq'⟩ := hpushed
      exact ⟨front', _, hq', hgoal _ (hitems.push hlt hleads hcopied hlast)⟩
  | pop e =>
      rw [hentry] at hleads
      unfold QueueWatch.Ships at hships
      rw [hentry] at hships
      rw [sendLog_of_pop _ _ hentry]
      refine .one trivial fun _ => ⟨trivial, ?_⟩
      have htaken : ∃ front', Db.IsQueue (s.proc ⟨log, none⟩).db name front' (e.rest items) := by
        cases e with
        | front => exact Slave.proc_pop (e := .front) hq hentry hrecords.sync
        | back => exact Slave.proc_pop (e := .back) hq hentry hrecords.sync
      obtain ⟨front', hq'⟩ := htaken
      refine ⟨front', _, hq', hgoal _ (hitems.pop hlt hleads ?_)⟩
      rw [hsucc]
      exact hships
  | set n =>
      rw [hentry] at hleads
      have hkey := hrecords.keyed n (by rw [hentry]; exact rfl)
      obtain ⟨-, hmin, hmax⟩ := decode_of_itemNumber (queueEntry_set.mp hentry).2
      have hcopied : c.copied name n := by
        simp only [copied, copiedUpTo, decide_eq_true_eq]
        intro hcopy
        rw [← hkey]
        exact hbefore hcopy
      rw [sendLog_of_gives _ _ (n := n) (by rw [hentry]; exact rfl)]
      have hlast := hx.item_last hmin hmax
      rw [← hkey] at hlast
      cases hval : x.world.master.db.get log.key with
      | none =>
          rw [hval] at hlast
          exact ⟨trivial, front, items, hq, hgoal _ (hitems.set_gone hlt hleads hlast)⟩
      | some val =>
          rw [hval] at hlast
          refine .one trivial fun hcan => ⟨trivial, ?_⟩
          unfold Slave.CanRead at hcan
          dsimp only at hcan
          rw [hentry] at hcan
          -- the numbers are those of the version before the entry
          have hsame : queueNumbers (x.past log.seq) name = queueNumbers (x.past (log.seq - 1)) name := by
            cases hleads with
            | set numbers _ _ =>
                rw [hsucc] at numbers
                exact numbers
          have hmem : n ∈ (queueNumbers (x.past log.seq) name).filter (c.copied name) := by
            cases hleads with
            | set _ old _ => exact List.mem_filter.mpr ⟨hsame ▸ old, hcopied⟩
          obtain ⟨first, past, hpast⟩ := hx.queues log.seq hbase.le
          obtain ⟨hfirst, hplace⟩ := copied_place hpast hmem
          have hne : past ≠ [] := by
            rintro rfl
            rw [hpast.queueNumbers_eq] at hmem
            simp at hmem
          rw [hsame] at hplace hmem
          have hlength := List.Forall₂.length_eq hitems
          have hindex : n - first < items.length := by
            rw [← hlength]
            exact (List.getElem?_eq_some_iff.mp ((hplace (n - first)).mpr rfl)).1
          have hfront : front = first := by
            have h := hq.qgetUint64_of_ne_nil .front (List.ne_nil_of_length_pos (by omega))
            have h' := hpast.qgetUint64_of_ne_nil .front hne
            simp only [QueueEnd.seq, endSeq] at h h'
            rw [h, h'] at hcan
            exact Lookup.found.inj hcan
          have hq' := Slave.proc_set (m := ⟨log, some val.image⟩) (i := n - first) hq
            (by rw [hentry, hfront, Nat.add_sub_cancel' hfirst]) rfl hrecords.sync hindex
          exact ⟨front, _, hq', hgoal _ (hitems.set hlt hleads hplace hlast)⟩

/-- **An entry is sent.** -/
theorem turned_sendLog (hx : x.Recorded name base) (hc : x.Tracks base name c) (hpoint : c.point = .send log)
    (hships : x.Ships name c log) : Turned x base name c (c.sendLog x.world.master.db log) := by
  obtain ⟨hseq, hbase, hget, hbefore⟩ := hc.sends log hpoint
  have hle := hc.seq_le
  constructor
  case tracks =>
    rw [fst_sendLog]
    exact Tracks.goOn hc (fun h => ⟨status_of_behindSync h, by omega⟩) c.behindSync_ne_send
  case seqs =>
    intro m hm
    rcases sendLog_messages x.world.master.db c log with hnil | ⟨val, hone⟩
    · rw [hnil] at hm
      cases hm
    · rw [hone] at hm
      rw [List.mem_singleton.mp hm]
      show log.seq ≤ _
      omega
  case reads =>
    intro s hs
    refine (hs.sendLog hx hc hpoint hships).mono (fun _ _ _ h => h) (fun _ h => h) fun s' _ hs' => ?_
    obtain ⟨front, items, hq, hitems⟩ := hs'
    rw [fst_sendLog]
    refine ⟨front, items, hq, ?_⟩
    rw [version_of_ne_send c.behindSync_ne_send]
    show (x.history name).Mirrors c.lastSeq _ _
    rw [← hseq]
    exact hitems

/-! ## A turn of `copy` -/

/-- The iterator of `copy`, an old one or one that is made now. -/
theorem lists_entries (hx : x.Recorded name base) (hc : x.Tracks base name c) (hcopy : c.status = .copy)
    (hlen : x.world.master.db.entries.length < 2 ^ 64) :
    x.Lists name c.lastSeq c.lastKey (c.entries x.world.master.db) := by
  cases hiter : c.iter with
  | some es =>
      rw [entries, hiter]
      exact hc.iter es hiter hcopy
  | none =>
      rw [entries, hiter, Option.getD_none, iterator_all hlen]
      constructor
      case behind =>
        intro p hp
        have hlt := (OrderedMap.mem_after.mp hp).1
        split at hlt
        · rename_i hnil
          rw [hnil]
          exact (List.nil_lt_cons _ _).trans hlt
        · exact hlt
      case sorted => exact x.world.master.db.after_sorted _
      case recent => exact fun p hp hhead n hn => hx.recent hc.seq_le (OrderedMap.mem_after.mp hp).2 hhead hn

theorem queueEntry_copy (name : Bytes) (seq : ℕ) {t : Byte} (rest : Bytes) {cmd : BinlogCommand}
    (hcmd : copyCommand t = some cmd) :
    queueEntry name ⟨seq, .copy, cmd, t :: rest⟩ =
      (if t = DataType.QUEUE then itemNumber name (t :: rest) else none).elim .other (.push .back) := by
  unfold copyCommand at hcmd
  split_ifs at hcmd with h1 h2 h3 h4
  · obtain rfl := Option.some.inj hcmd
    rw [if_neg (by rw [h1]; decide)]
    rfl
  · obtain rfl := Option.some.inj hcmd
    rw [if_neg (by rw [h2]; decide)]
    rfl
  · obtain rfl := Option.some.inj hcmd
    rw [if_neg (by rw [h3]; decide)]
    rfl
  · obtain rfl := Option.some.inj hcmd
    rw [if_pos h4]
    rfl

/-- **The end of a copy.** -/
theorem turned_copyEnd (hc : x.Tracks base name c) (hpoint : c.point = .copy)
    (hall : x.copiedNumbers name c c.lastSeq = queueNumbers (x.past c.lastSeq) name) :
    Turned x base name c c.copyEnd := by
  refine .one ?_ hc.seq_le fun s hs _ => ?_
  · constructor
    case status => exact Or.inr rfl
    case seq_le => exact hc.seq_le
    case copying => exact fun h => by cases h
    case begun => exact fun _ => hc.begun (Or.inr hpoint)
    case atStart => rintro ⟨hcopy, -⟩; cases hcopy
    case sends => exact fun log h => by cases h
    case iter => exact fun es hes => by cases hes
  · obtain ⟨front, items, hq, hitems⟩ := hs
    rw [version_of_ne_send (by simp [hpoint])] at hitems
    refine ⟨front, items, Slave.proc_other hq rfl, ?_⟩
    have hnext : ((x.history name).past c.lastSeq).numbers.filter (copied name c.copyEnd.1) =
        ((x.history name).past c.lastSeq).numbers.filter (c.copied name) ++ (none : Option ℕ).toList := by
      rw [Option.toList_none, List.append_nil]
      refine (List.filter_eq_self.mpr fun n _ => ?_).trans hall.symm
      exact copied_of_sync rfl n
    have hcopied := hitems.copy hnext .nil
    rwa [List.append_nil] at hcopied

/-- **A record is copied.** -/
theorem turned_copyRecord (hc : x.Tracks base name c) (hpoint : c.point = .copy) {t : Byte} {rest : Bytes}
    {v : Value} {es : List (Bytes × Value)} (hlists : x.Lists name c.lastSeq c.lastKey ((t :: rest, v) :: es))
    (hnext : x.copiedNumbers name { c with lastKey := t :: rest } c.lastSeq =
      x.copiedNumbers name c c.lastSeq ++
        (if t = DataType.QUEUE then itemNumber name (t :: rest) else none).toList) :
    Turned x base name c
      (match copyCommand t with
      | none => ({ c with iter := some es, lastKey := t :: rest }, [])
      | some cmd => ({ c with iter := some es, lastKey := t :: rest },
          [⟨⟨c.lastSeq, .copy, cmd, t :: rest⟩, some v.image⟩])) := by
  have hcopy := hc.copying hpoint
  obtain ⟨hfirst, hsorted⟩ := List.pairwise_cons.mp hlists.sorted
  have htracks : x.Tracks base name { c with iter := some es, lastKey := t :: rest } := by
    constructor
    case status => exact hc.status
    case seq_le => exact hc.seq_le
    case copying => exact hc.copying
    case begun => exact fun _ => hc.begun (Or.inr hpoint)
    case atStart => rintro ⟨-, hkey⟩; cases hkey
    case sends =>
      intro log h
      rw [show c.point = .send log from h] at hpoint
      cases hpoint
    case iter =>
      intro es' hes' _
      obtain rfl : es = es' := Option.some.inj hes'
      exact ⟨hfirst, hsorted, fun p hp => hlists.recent p (List.mem_cons_of_mem _ hp)⟩
  have hsend : ∀ log, c.point ≠ .send log := by simp [hpoint]
  have hsend' : ∀ log, Client.point { c with iter := some es, lastKey := t :: rest } ≠ .send log := hsend
  -- the items, with the next one if the record is one
  have hcopied : ∀ {items vs}, (x.history name).Mirrors c.version (c.copied name) items →
      List.Forall₂ ((x.history name).Recent c.lastSeq)
        (if t = DataType.QUEUE then itemNumber name (t :: rest) else none).toList vs →
      (x.history name).Mirrors (version { c with iter := some es, lastKey := t :: rest })
        (copied name { c with iter := some es, lastKey := t :: rest }) (items ++ vs) := by
    intro items vs hitems hvs
    rw [version_of_ne_send hsend] at hitems
    rw [version_of_ne_send hsend']
    exact hitems.copy hnext hvs
  cases hcmd : copyCommand t with
  | none =>
      refine .silent htracks fun s hs => ?_
      obtain ⟨front, items, hq, hitems⟩ := hs
      have hqueue : t ≠ DataType.QUEUE := by
        rintro rfl
        cases hcmd
      have hnone : List.Forall₂ ((x.history name).Recent c.lastSeq)
          (if t = DataType.QUEUE then itemNumber name (t :: rest) else none).toList [] := by
        rw [if_neg hqueue]
        exact .nil
      have hmirrors := hcopied hitems hnone
      rw [List.append_nil] at hmirrors
      exact ⟨front, items, hq, hmirrors⟩
  | some cmd =>
      refine .one htracks hc.seq_le fun s hs hcan => ?_
      obtain ⟨front, items, hq, hitems⟩ := hs
      have hentry := queueEntry_copy name c.lastSeq rest hcmd
      cases hitem : (if t = DataType.QUEUE then itemNumber name (t :: rest) else none) with
      | none =>
          rw [hitem] at hentry hcopied
          have hmirrors := hcopied hitems .nil
          rw [List.append_nil] at hmirrors
          exact ⟨front, items, Slave.proc_other hq hentry, hmirrors⟩
      | some n =>
          rw [hitem] at hentry hcopied
          obtain ⟨hqueue, hnumber⟩ : t = DataType.QUEUE ∧ itemNumber name (t :: rest) = some n := by
            split at hitem
            · exact ⟨‹_›, hitem⟩
            · cases hitem
          unfold Slave.CanRead at hcan
          dsimp only at hcan
          rw [hentry] at hcan
          have hpush : cmd = .qpushBack := (queueEntry_push (e := .back).mp hentry).1
          obtain ⟨front', hq'⟩ := Slave.proc_push
            (m := ⟨⟨c.lastSeq, .copy, cmd, t :: rest⟩, some v.image⟩) (e := .back) hq hentry rfl
            (Or.inr ⟨rfl, hpush⟩) hcan
          obtain ⟨-, hrecent⟩ := hlists.recent _ List.mem_cons_self (by rw [hqueue]; rfl) n hnumber
          exact ⟨front', _, hq', hcopied hitems (.cons hrecent .nil)⟩

/-- **A turn of `copy`.** -/
theorem turned_copyTurn (hx : x.Recorded name base) (hc : x.Tracks base name c) (hpoint : c.point = .copy)
    (hlen : x.world.master.db.entries.length < 2 ^ 64) (hcopies : x.Copies name c) :
    Turned x base name c (c.copyTurn x.world.master.db) := by
  have hlists := lists_entries hx hc (hc.copying hpoint) hlen
  unfold QueueWatch.Copies at hcopies
  unfold copyTurn
  cases hes : c.entries x.world.master.db with
  | nil =>
      rw [hes] at hcopies
      exact turned_copyEnd hc hpoint hcopies
  | cons p es =>
      obtain ⟨k, v⟩ := p
      rw [hes] at hcopies hlists
      cases k with
      | nil => exact absurd (hlists.behind _ List.mem_cons_self) (List.not_lt_nil _)
      | cons t rest =>
          dsimp only at hcopies ⊢
          split at hcopies
          · rw [if_pos ‹_›]
            exact turned_copyEnd hc hpoint hcopies
          · rw [if_neg ‹_›]
            exact turned_copyRecord hc hpoint hlists hcopies

theorem turned_copyBreak (hc : x.Tracks base name c) (hpoint : c.point = .copy) :
    Turned x base name c ({ c with point := .idle }, []) := by
  refine .silent (Tracks.goOn hc (by simp) (by simp)) fun s hs => hs.of_eq ?_ rfl
  rw [version_of_ne_send (c := c) (by simp [hpoint]), version_of_ne_send (by simp)]

/-- **The next turn of the thread.** -/
theorem turned_idleTurn (hc : x.Tracks base name c) (hpoint : c.point = .idle) (silent : Bool) :
    Turned x base name c (c.idleTurn silent) := by
  have hin : c.status ≠ .outOfSync := by rcases hc.status with h | h <;> rw [h] <;> decide
  have hgo : x.Tracks base name { c with point := .sync } := Tracks.goOn hc (by simp) (by simp)
  have hmirrors : ∀ s, c.Mirrors x name s → Mirrors x name { c with point := .sync } s := by
    refine fun s hs => hs.of_eq ?_ rfl
    rw [version_of_ne_send (c := c) (by simp [hpoint]), version_of_ne_send (by simp)]
  unfold idleTurn
  cases silent with
  | true =>
      rw [if_pos rfl]
      dsimp only
      rw [if_neg hin]
      exact .silent hgo hmirrors
  | false =>
      rw [if_neg (by decide)]
      by_cases hstart : c.AtStart
      · rw [noop_of_atStart hstart]
        dsimp only
        rw [if_neg hin]
        exact .one hgo (Nat.zero_le _) fun s hs _ => (hmirrors s hs).proc_other rfl
      · rw [noop_of_not_atStart hstart]
        dsimp only
        rw [if_neg hin]
        refine .one ?_ hc.seq_le fun s hs _ => ?_
        · exact ⟨hgo.status, hgo.seq_le, hgo.copying, hgo.begun, hgo.atStart, hgo.sends, hgo.iter⟩
        · exact (hmirrors s hs).proc_other rfl

end Client

end Ssdb
