/-
# When a slave converges

A slave that has caught up has the key-value pairs, hashes and sorted sets of the master
(`replica_convergence`), in every run in which no entry of the binlog is passed over unseen.

`sync` does pass over entries: with `last_seq` 0 in the status `COPY` it takes the last entry of the
binlog, which is right before anything is copied.  When the binlog was empty then, `last_seq` stays 0
while keys are copied, and of several entries that are added all but the last are lost
(`replica_diverges`).
-/
import DoudizhuBackend.GuardedRun
import DoudizhuBackend.Ssdb.ReplicaCopy

namespace Ssdb

/-! ## Runs -/

/-- A master and its slave, with the number for which `last_seq` 0 stands in a copy that has begun. -/
structure Watched where
  world : Replication
  mark : ℕ

namespace Watched

/-- The number is that of the last entry when the iterator of the copy is made. -/
def step (x : Watched) (l : ReplicationStep) : Watched where
  world := x.world.step l
  mark :=
    match l, x.world.client with
    | .copyTurn, some c => if c.point = .copy ∧ c.AtStart then x.world.master.lastSeq else x.mark
    | _, _ => x.mark

/-- The steps that lose nothing: `sync` passes over no entry unseen, a slave that begins a copy has no
records, the slave can carry out what it is sent, and the counters have 64 bits. -/
def Regular (x : Watched) : ReplicationStep → Prop
  | .write op =>
      op.family ≠ .queue ∧ (∀ by_, op ≠ .incr [] by_) ∧
        x.world.master.lastSeq + logCount (op.writes x.world.master.db .sync) < 2 ^ 64 - 1
  | .connect =>
      x.world.slave.lastSeq = 0 → x.world.slave.lastKey = [] →
        ∀ p ∈ x.world.slave.db.entries, ¬ IsReplicated p.1
  | .syncTurn =>
      ∀ c ∈ x.world.client, c.point = .sync →
        ∀ log ∈ c.findLog x.world.master.db, c.Finds x.mark log
  | .copyTurn => x.world.master.db.entries.length < 2 ^ 64
  | .deliver => ∀ m ∈ x.world.link.head?, x.world.slave.Fits m
  | _ => True

/-- The origin that a watched replication stands for. -/
def origin (x : Watched) (base : ℕ) (hist : List Binlog) : Origin :=
  ⟨x.world.master, base, hist, x.mark⟩

end Watched

/-- The slave on its way through the messages, and behind them. -/
def Replication.Follows (w : Replication) (o : Origin) : Prop :=
  w.slave.Reads Slave.Fits (fun s => s.Resumes o ∧ ∀ c, w.client = some c → c.Awaits o s)
    (fun s => ∀ c, w.client = some c → c.Serves o s) w.link

/-- What every step keeps. -/
def Watched.Sound (x : Watched) : Prop :=
  ∃ base hist, (x.origin base hist).Valid ∧
    (x.world.signalled = true ∨ x.world.Follows (x.origin base hist))

namespace Replication

variable {w : Replication} {o o' : Origin} {c : Client}

theorem Follows.grows (h : w.Follows o) (ho : o.Valid) (hgrows : o.Grows o') : w.Follows o' := by
  refine Slave.Reads.mono (fun _ _ _ hm => hm) ?_ ?_ h
  · exact fun s hs => ⟨hs.1.grows ho hgrows, fun c hc => (hs.2 c hc).grows ho hgrows⟩
  · exact fun s _ hserves c hc => (hserves c hc).grows ho hgrows

/-- **A turn of the thread.** -/
theorem Follows.send (h : w.Follows o) (hclient : w.client = some c) {r : Client × List Message}
    (hmoves : c.Moves o o' r) : (w.send r).Follows o' := by
  show Slave.Reads Slave.Fits (fun s => s.Resumes o' ∧ ∀ c', some r.1 = some c' → c'.Awaits o' s)
    (fun s => ∀ c', some r.1 = some c' → c'.Serves o' s) w.slave (w.link ++ r.2)
  refine Slave.Reads.append (fun _ _ _ hm => hm) ?_ ?_ h
  · rintro s ⟨-, hs⟩
    have hawaits := hmoves.awaits s (hs c hclient)
    exact ⟨hawaits.resumes, by rintro _ ⟨⟩; exact hawaits⟩
  · rintro s ⟨-, hs⟩ hc
    refine (hmoves.serves s (hs c hclient) (hc c hclient)).mono (fun _ _ _ hm => hm) ?_ ?_
    · exact fun s' hs' => ⟨hs'.resumes, by rintro _ ⟨⟩; exact hs'⟩
    · exact fun s' _ hc' => by rintro _ ⟨⟩; exact hc'

end Replication

namespace Watched

variable {x : Watched} {base : ℕ} {hist : List Binlog} {c : Client}

/-- A turn of the thread, unless `OUT_OF_SYNC` is signalled. -/
theorem sound_send (hclient : x.world.client = some c)
    (hrun : x.world.signalled = true ∨ x.world.Follows (x.origin base hist)) {mark : ℕ}
    (hvalid : Origin.Valid ⟨x.world.master, base, hist, mark⟩) {r : Client × List Message}
    (hmoves : r.1.status ≠ .outOfSync →
      c.Moves (x.origin base hist) ⟨x.world.master, base, hist, mark⟩ r) :
    Sound ⟨x.world.send r, mark⟩ := by
  refine ⟨base, hist, hvalid, ?_⟩
  by_cases hout : r.1.status = .outOfSync
  · left
    simp [Replication.send, hout]
  · rcases hrun with hsignalled | hfollows
    · left
      simp [Replication.send, hsignalled]
    · exact Or.inr (hfollows.send hclient (hmoves hout))

/-- **A turn of the thread.** -/
theorem Sound.turn (h : x.Sound) {l : ReplicationStep} (hreg : x.Regular l) (hl : l.IsTurn) :
    (x.step l).Sound := by
  rcases x.world.step_turn hl with ⟨hsame, hnone⟩ | ⟨c, r, hclient, hturn, hstep⟩
  · have hstep : x.step l = x := by
      have hmark : (x.step l).mark = x.mark := by
        unfold step
        dsimp only
        split
        · rename_i c hclient
          exact if_neg fun h => hnone c _ hclient (.copyTurn h.1)
        · rfl
      calc x.step l = ⟨x.world.step l, (x.step l).mark⟩ := rfl
        _ = x := by rw [hsame, hmark]
    rw [hstep]
    exact h
  · obtain ⟨base, hist, hvalid, hrun⟩ := h
    have heq : x.step l = ⟨x.world.send r, (x.step l).mark⟩ := by
      rw [← hstep]
      rfl
    rw [heq]
    cases hturn with
    | syncTurn hpoint =>
        exact sound_send hclient hrun hvalid
          (Client.moves_syncTurn hvalid hpoint (hreg c hclient hpoint))
    | sendLog hpoint => exact sound_send hclient hrun hvalid fun _ => Client.moves_sendLog hvalid hpoint
    | copyTurn hpoint =>
        have hmark : (x.step .copyTurn).mark = if c.AtStart then x.world.master.lastSeq else x.mark := by
          simp only [step, hclient, hpoint, true_and]
        rw [hmark]
        exact sound_send hclient hrun (hvalid.begin c) fun _ => Client.moves_copyTurn hvalid hpoint hreg
    | copyBreak hpoint => exact sound_send hclient hrun hvalid fun _ => Client.moves_copyBreak hpoint
    | idleTurn hpoint silent =>
        exact sound_send hclient hrun hvalid fun _ => Client.moves_idleTurn hpoint silent

/-- **A connection.** -/
theorem Sound.connect (h : x.Sound) (hreg : x.Regular .connect) : Sound ⟨x.world.connect, x.mark⟩ := by
  obtain ⟨base, hist, hvalid, hrun⟩ := h
  refine ⟨base, hist, hvalid, ?_⟩
  by_cases hout : (Client.init x.world.master x.world.slave.lastSeq x.world.slave.lastKey
      x.world.slave.isMirror).1.status = .outOfSync
  · left
    simp [Replication.connect, Replication.send, hout]
  · rcases hrun with hsignalled | hfollows
    · left
      simp [Replication.connect, Replication.send, hsignalled]
    · right
      have hnew : x.world.slave.lastSeq = 0 → x.world.slave.lastKey = [] →
          ∀ k, x.world.slave.db.content k = none := by
        intro hseq hkey k
        by_contra hne
        obtain ⟨v, hv⟩ := Option.ne_none_iff_exists'.mp hne
        by_cases hrep : IsReplicated k
        · rw [Db.content_of_isReplicated hrep] at hv
          obtain ⟨w, hw, -⟩ := Option.map_eq_some_iff.mp hv
          exact hreg hseq hkey (k, w) (OrderedMap.mem_entries_iff.mpr hw) hrep
        · exact hne (Db.content_of_not hrep _)
      have hreads := Client.reads_init hfollows.here.1 hnew hout
      exact hreads.mono (fun _ _ _ hm => hm) (fun s hs => ⟨hs.resumes, by rintro _ ⟨⟩; exact hs⟩)
        fun s _ hs => by rintro _ ⟨⟩; exact hs

/-- **One step.** -/
theorem Sound.step (h : x.Sound) {l : ReplicationStep} (hreg : x.Regular l) : (x.step l).Sound := by
  by_cases hl : l.IsTurn
  · exact h.turn hreg hl
  have hsame := h
  obtain ⟨base, hist, hvalid, hrun⟩ := h
  cases l with
  | write op =>
      obtain ⟨hop, hincr, hbound⟩ := hreg
      obtain ⟨hist', hvalid', hgrows⟩ := hvalid.write hop hincr hbound
      exact ⟨base, hist', hvalid', hrun.imp_right fun hfollows => hfollows.grows hvalid hgrows⟩
  | clearBinlog =>
      obtain ⟨hvalid', hgrows⟩ := hvalid.flush
      exact ⟨base, hist, hvalid', hrun.imp_right fun hfollows => hfollows.grows hvalid hgrows⟩
  | connect =>
      cases hclient : x.world.client with
      | some c =>
          have hstep : x.step .connect = x := by
            simp only [Watched.step, Replication.step, hclient, Option.isNone_some, Bool.false_eq_true,
              if_false]
          rw [hstep]
          exact hsame
      | none =>
          have hstep : x.step .connect = ⟨x.world.connect, x.mark⟩ := by
            simp only [Watched.step, Replication.step, hclient, Option.isNone_none, if_true]
          rw [hstep]
          exact hsame.connect hreg
  | disconnect =>
      refine ⟨base, hist, hvalid, hrun.imp_right fun hfollows => ?_⟩
      exact ⟨⟨hfollows.here.1, fun c hc => by cases hc⟩, fun c hc => by cases hc⟩
  | deliver =>
      cases hlink : x.world.link with
      | nil =>
          have hstep : x.step .deliver = x := by simp only [Watched.step, Replication.step, hlink]
          rw [hstep]
          exact hsame
      | cons m ms =>
          have hfits : x.world.slave.Fits m := hreg m (by rw [hlink]; rfl)
          have hstep : x.step .deliver =
              ⟨{ x.world with link := ms, slave := x.world.slave.proc m }, x.mark⟩ := by
            simp only [Watched.step, Replication.step, hlink]
          rw [hstep]
          refine ⟨base, hist, hvalid, hrun.imp_right fun hfollows => ?_⟩
          rw [Replication.Follows, hlink] at hfollows
          exact hfollows.2 hfits
  | _ => exact absurd trivial hl

end Watched

/-! ## The same data -/

/-- Two databases with the same key-value pairs, hashes and sorted sets, with their sizes, scores and
score records. -/
structure Db.SameData (db db' : Db) : Prop where
  kv : ∀ key, Kv.get db key = Kv.get db' key
  hget : ∀ name key, hget db name key = hget db' name key
  hsize : ∀ name, hsize db name = hsize db' name
  zget : ∀ name key, zget db name key = zget db' name key
  zsize : ∀ name, zsize db name = zsize db' name
  zscore : ∀ k : Bytes, k.head? = some DataType.ZSCORE → db.get k = db'.get k

/-- Lists without repetition have the same length when they have the same members. -/
theorem length_eq_of_mem_iff {α : Type} {xs ys : List α} (hxs : xs.Nodup) (hys : ys.Nodup)
    (h : ∀ x, x ∈ xs ↔ x ∈ ys) : xs.length = ys.length :=
  ((List.perm_ext_iff_of_nodup hxs hys).mpr h).length_eq

section SameData

variable {db db' : Db} (hdb : db.IsStore) (hdb' : db'.IsStore)

include hdb hdb'

theorem hsize_eq_of_hget_eq {name : Bytes} (h : ∀ key, hget db name key = hget db' name key) :
    hsize db name = hsize db' name := by
  obtain ⟨content, keys, hh⟩ := hdb.hashes.hashes name
  obtain ⟨content', keys', hh'⟩ := hdb'.hashes.hashes name
  rw [hh.hsize_eq, hh'.hsize_eq, length_eq_of_mem_iff hh.nodup hh'.nodup fun key => ?_]
  rw [hh.mem_keys, hh'.mem_keys, ← hh.hget_eq, ← hh'.hget_eq, h]

theorem zsize_eq_of_zget_eq {name : Bytes} (h : ∀ key, zget db name key = zget db' name key) :
    zsize db name = zsize db' name := by
  obtain ⟨content, keys, hz⟩ := hdb.zsets name
  obtain ⟨content', keys', hz'⟩ := hdb'.zsets name
  rw [hz.zsize_eq, hz'.zsize_eq, length_eq_of_mem_iff hz.nodup hz'.nodup fun key => ?_]
  have hkey := congrArg Option.isSome (h key)
  rw [hz.zget_eq, hz'.zget_eq, Option.isSome_map, Option.isSome_map] at hkey
  rw [hz.mem_keys, hz'.mem_keys, hkey]

/-- A score record is that of the score of its member. -/
theorem get_zscore (h : ∀ name key, zget db name key = zget db' name key) {k : Bytes}
    (hk : k.head? = some DataType.ZSCORE) {v : Value} (hget : db.get k = some v) : db'.get k = some v := by
  obtain ⟨name, key, s, -, hs, rfl⟩ := hdb.scores k v hget hk
  obtain ⟨content, keys, hz⟩ := hdb.zsets name
  obtain ⟨content', keys', hz'⟩ := hdb'.zsets name
  rw [hz.score key s hs] at hget
  split at hget
  · rename_i hcontent
    have hkey := h name key
    rw [hz.zget_eq, hz'.zget_eq, hcontent] at hkey
    obtain ⟨s', hs', heq⟩ := Option.map_eq_some_iff.mp hkey.symm
    rw [hz'.score key s hs, hs', str_injective heq, if_pos rfl]
    exact hget
  · cases hget

/-- **The records make up the data.** -/
theorem Db.SameData.of_content (h : db.content = db'.content) : db.SameData db' := by
  have hreplicated : ∀ k, IsReplicated k → (db.get k).map Value.image = (db'.get k).map Value.image := by
    intro k hk
    rw [← Db.content_of_isReplicated hk, ← Db.content_of_isReplicated hk, h]
  have hhash : ∀ name key, Ssdb.hget db name key = Ssdb.hget db' name key :=
    fun name key => hreplicated _ (Or.inr (Or.inl rfl))
  have hzset : ∀ name key, Ssdb.zget db name key = Ssdb.zget db' name key :=
    fun name key => hreplicated _ (Or.inr (Or.inr rfl))
  constructor
  case kv => exact fun key => hreplicated _ (Or.inl rfl)
  case hget => exact hhash
  case hsize => exact fun name => hsize_eq_of_hget_eq hdb hdb' (hhash name)
  case zget => exact hzset
  case zsize => exact fun name => zsize_eq_of_zget_eq hdb hdb' (hzset name)
  case zscore =>
    intro k hk
    cases hget : db.get k with
    | some v => exact (get_zscore hdb hdb' hzset hk hget).symm
    | none =>
        cases hget' : db'.get k with
        | none => rfl
        | some v =>
            rw [get_zscore hdb' hdb (fun name key => (hzset name key).symm) hk hget'] at hget
            cases hget

end SameData

/-! ## Convergence -/

/-- A master with any data, whatever its binlog holds, and a slave that holds nothing. -/
structure Replication.Starts (w : Replication) : Prop where
  master : ∃ steps : List StoreStep, ∀ k : Bytes, k.head? ≠ some DataType.SYNCLOG →
    w.master.db.get k = (steps.foldl Db.step OrderedMap.empty).get k
  logs : LogsUpTo w.master.lastSeq w.master.db
  bound : w.master.lastSeq < 2 ^ 64 - 1
  client : w.client = none
  link : w.link = []
  slave : w.slave.db = OrderedMap.empty ∧ w.slave.lastSeq = 0 ∧ w.slave.lastKey = []

namespace Replication.Starts

variable {w : Replication}

/-- All entries of the binlog are from before. -/
theorem ships (hw : w.Starts) (hnil : w.master.db.get (encodeKvKey []) = none) :
    w.master.Ships w.master.lastSeq [] := by
  obtain ⟨steps, hget⟩ := hw.master
  constructor
  case last => rfl
  case bound => exact hw.bound
  case logs => exact hw.logs
  case entry =>
    intro n l hn hlt hl
    obtain ⟨hkey, hle⟩ := seq_of_get hw.logs hl
    have hbound := hw.bound
    have heq : n = l.seq := encodeSeqKey_inj hlt (by omega) hkey
    omega
  case named => exact fun l hl => by cases hl
  case honest =>
    intro n k b hentry
    have hle := Source.entry_le_last hentry
    have hlast : (w.master.source w.master.lastSeq []).last = w.master.lastSeq := rfl
    have hbase : (w.master.source w.master.lastSeq []).base = w.master.lastSeq := rfl
    omega
  case stored => exact (Db.Stored.run steps).congr hget
  case ne_nil =>
    intro k v hk hkey
    rw [hkey, hnil] at hk
    cases hk

theorem sound (hw : w.Starts) (hnil : w.master.db.get (encodeKvKey []) = none) :
    Watched.Sound ⟨w, 0⟩ := by
  obtain ⟨hdb, hseq, hkey⟩ := hw.slave
  refine ⟨w.master.lastSeq, [], ⟨hw.ships hnil, Nat.zero_le _⟩, Or.inr ?_⟩
  have hno : ¬ (w.slave.lastSeq ≠ 0 ∨ w.slave.lastKey ≠ []) := by simp [hseq, hkey]
  have hresumes : w.slave.Resumes (Watched.origin ⟨w, 0⟩ w.master.lastSeq []) := by
    refine ⟨?_, ?_, fun h => absurd hkey h, fun h => absurd h hno, fun h => absurd h hno⟩
    · rw [hdb]
      exact isStore_run []
    · rw [hseq]
      exact Nat.zero_le _
  have hnone : ∀ c, w.client ≠ some c := by simp [hw.client]
  rw [Replication.Follows, hw.link]
  exact ⟨⟨hresumes, fun c hc => absurd hc (hnone c)⟩, fun c hc => absurd hc (hnone c)⟩

end Replication.Starts

/-- The slave has caught up with the master. -/
theorem Replication.Follows.sameData {w : Replication} {o : Origin} (h : w.Follows o) (ho : o.Valid)
    (hmaster : o.master = w.master) (hcaught : w.CaughtUp) : w.slave.db.SameData w.master.db := by
  obtain ⟨c, hclient, hsync, hseq, hpoint, hlink⟩ := hcaught
  rw [Replication.Follows, hlink] at h
  obtain ⟨⟨hresumes, -⟩, hserves⟩ := h
  have hlead : c.Leads o w.slave := by
    refine (hserves c hclient).resolve_left fun hwaits => ?_
    rw [hwaits.atStart.1] at hsync
    cases hsync
  have hfollows := hlead.follows
  rw [Client.cursor_of_sync hsync, Client.hand_eq_none hpoint] at hfollows
  have hlast : o.source.last ≤ o.number c.lastSeq := by
    rw [Origin.source, ho.ships.source_last, hmaster, ← hseq, Origin.number]
    split
    · omega
    · exact le_rfl
  have hcontent : w.slave.db.content = o.master.db.content := hfollows.content_eq hlast
  rw [hmaster] at hcontent
  exact .of_content hresumes.store (hmaster ▸ ho.ships.stored.store) hcontent

/-- Watching changes nothing. -/
theorem world_foldl (steps : List ReplicationStep) :
    ∀ x : Watched, (steps.foldl Watched.step x).world = steps.foldl Replication.step x.world := by
  induction steps with
  | nil => exact fun x => rfl
  | cons l steps ih => exact fun x => ih (x.step l)

/-- **Replica convergence.**  In every run whose steps lose nothing, a slave that has caught up has the
data of the master, provided that `OUT_OF_SYNC` has not been signalled. -/
theorem replica_convergence {w : Replication} (hw : w.Starts)
    (hnil : w.master.db.get (encodeKvKey []) = none) {steps : List ReplicationStep}
    (h : Guarded Watched.step Watched.Regular ⟨w, 0⟩ steps)
    (hin : (steps.foldl Replication.step w).signalled = false)
    (hcaught : (steps.foldl Replication.step w).CaughtUp) :
    (steps.foldl Replication.step w).slave.db.SameData (steps.foldl Replication.step w).master.db := by
  have hsound := h.invariant (I := Watched.Sound) (fun x l hx hl => hx.step hl) (hw.sound hnil)
  obtain ⟨base, hist, hvalid, hrun⟩ := hsound
  have hworld := world_foldl steps ⟨w, 0⟩
  rw [hworld, hin] at hrun
  rcases hrun with hsignalled | hfollows
  · cases hsignalled
  · exact hfollows.sameData hvalid (congrArg Replication.master hworld) hcaught

instance (s : Slave) (m : Message) : Decidable (s.Fits m) :=
  decidable_of_iff
    (m.log.cmd = .qpushBack → ∀ p ∈ decodeQitemKey m.log.key, 0 < room s.db p.1 .back)
    ⟨fun h hcmd name seq hdecode => h hcmd (name, seq) hdecode,
      fun h hcmd p hdecode => h hcmd p.1 p.2 hdecode⟩

instance : (op : Operation) → Decidable (∀ by_, op ≠ .incr [] by_)
  | .incr [] by_ => isFalse fun h => h by_ rfl
  | .incr (_ :: _) _ => isTrue fun _ h => nomatch h
  | .set .. | .setnx .. | .getset .. | .setbit .. | .del .. | .multiSet .. | .multiDel .. | .hset ..
  | .hdel .. | .hincr .. | .zset .. | .zdel .. | .zincr .. | .qpush .. | .qpop .. | .qset .. =>
      isTrue fun _ h => nomatch h

instance (x : Watched) : DecidablePred x.Regular
  | .write _ => inferInstanceAs (Decidable (_ ∧ _ ∧ _))
  | .connect => inferInstanceAs (Decidable (_ → _ → _))
  | .syncTurn => inferInstanceAs (Decidable (∀ c ∈ _, _ → ∀ log ∈ _, _))
  | .copyTurn => inferInstanceAs (Decidable (_ < _))
  | .deliver => inferInstanceAs (Decidable (∀ m ∈ _, _))
  | .clearBinlog | .disconnect | .sendLog | .copyBreak | .idleTurn _ =>
      inferInstanceAs (Decidable True)

instance (c : Client) : Decidable (∀ log, c.point ≠ .send log) :=
  decidable_of_iff _ Client.hand_eq_none_iff

instance (w : Replication) : Decidable w.CaughtUp :=
  decidable_of_iff
    (∃ c ∈ w.client, c.status = .sync ∧ c.lastSeq = w.master.lastSeq ∧ (∀ log, c.point ≠ .send log) ∧
      w.link = [])
    Iff.rfl

/-- A master with two keys and an empty binlog, and a slave that holds nothing. -/
def twoKeys : Replication where
  master := .openDb
    ((OrderedMap.empty.put (encodeKvKey (ascii "a")) (.bytes (ascii "1"))).put (encodeKvKey (ascii "b"))
      (.bytes (ascii "2"))) ⟨20, by decide⟩
  client := none
  link := []
  slave := ⟨OrderedMap.empty, 0, [], false⟩
  signalled := false

theorem twoKeys_starts : twoKeys.Starts where
  master := by
    refine ⟨[.write (.set (ascii "a") (ascii "1")) .sync, .write (.set (ascii "b") (ascii "2")) .sync], ?_⟩
    exact fun k _ => rfl
  logs := by
    intro k v hget hhead
    have hmem := OrderedMap.mem_entries_iff.mpr hget
    have hnone : ∀ p ∈ twoKeys.master.db.entries, p.1.head? ≠ some DataType.SYNCLOG := by decide +kernel
    exact absurd hhead (hnone _ hmem)
  bound := by decide +kernel
  client := rfl
  link := rfl
  slave := ⟨rfl, rfl, rfl⟩

/-- One key is copied, and written again before the other one is. -/
def oneWrite : List ReplicationStep :=
  [.connect, .syncTurn, .copyTurn, .copyBreak, .idleTurn true, .write (.set (ascii "a") (ascii "9")),
    .syncTurn, .sendLog, .copyTurn, .copyTurn, .deliver, .deliver, .deliver, .deliver, .deliver]

/-- The entry of the one write is shipped. -/
theorem replica_convergence_oneWrite :
    (oneWrite.foldl Replication.step twoKeys).slave.db.SameData
      (oneWrite.foldl Replication.step twoKeys).master.db :=
  replica_convergence twoKeys_starts (by decide +kernel) (by decide +kernel) (by decide +kernel)
    (by decide +kernel)

/-- The same with a write of the other key behind it. -/
def twoWrites : List ReplicationStep :=
  [.connect, .syncTurn, .copyTurn, .copyBreak, .idleTurn true, .write (.set (ascii "a") (ascii "9")),
    .write (.set (ascii "b") (ascii "8")), .syncTurn, .syncTurn, .copyTurn, .copyTurn, .deliver,
    .deliver, .deliver, .deliver]

/-- **A lost update.**  The binlog is empty when the copy begins, and has two entries when `sync` is
called again: it looks only at the last one.  The slave has caught up, and has the old value. -/
theorem replica_diverges :
    let w := twoWrites.foldl Replication.step twoKeys
    twoKeys.Starts ∧ w.signalled = false ∧ w.CaughtUp ∧
      Kv.get w.slave.db (ascii "a") = some (ascii "1") ∧
      Kv.get w.master.db (ascii "a") = some (ascii "9") ∧ ¬ w.slave.db.SameData w.master.db := by
  intro w
  have hslave : Kv.get w.slave.db (ascii "a") = some (ascii "1") := by decide +kernel
  have hmaster : Kv.get w.master.db (ascii "a") = some (ascii "9") := by decide +kernel
  refine ⟨twoKeys_starts, by decide +kernel, by decide +kernel, hslave, hmaster, fun hsame => ?_⟩
  have hkv := hsame.kv (ascii "a")
  rw [hslave, hmaster] at hkv
  exact absurd hkv (by decide)

end Ssdb
