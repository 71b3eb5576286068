/-
# The turns of the thread of the master

What the turns of `sync` and `copy` can do (`Client.Turns`, `Replication.step_turn`), whatever is said
about the databases.  The messages on the way are read later, or never: `Slave.Reads` speaks of the slave
behind each of them.
-/
import DoudizhuBackend.Ssdb.Replication
import Mathlib.Order.WithBot

namespace Ssdb

/-! ## Cursors -/

/-- The cursor at a key. -/
abbrev cursorAt (k : Bytes) : WithBot (WithTop Bytes) := ((k : WithTop Bytes) : WithBot (WithTop Bytes))

/-- The places of a copy are in the order of the keys. -/
theorem cursorAt_lt {k l : Bytes} : cursorAt k < cursorAt l ↔ k < l := by
  rw [WithBot.coe_lt_coe, WithTop.coe_lt_coe]

theorem cursorAt_le {k l : Bytes} : cursorAt k ≤ cursorAt l ↔ k ≤ l := by
  rw [WithBot.coe_le_coe, WithTop.coe_le_coe]

/-- The iterator of `copy` has no end. -/
theorem iterator_all {db : Db} (hlen : db.entries.length < 2 ^ 64) (first : Bytes) :
    iterator db first [] (2 ^ 64 - 1) = db.after first := by
  have hend : (db.after first).takeWhile (fun p => ([] : Bytes) = [] ∨ p.1 ≤ []) = db.after first := by
    rw [List.takeWhile_eq_self_iff]
    simp
  have hle : (db.after first).length ≤ db.entries.length := List.length_filter_le _ _
  rw [iterator, hend, List.take_of_length_le (by omega)]

/-! ## Messages on the way -/

namespace Slave

/-- `P` holds of the slave on its way through the messages, and `Q` of the slave behind them, if it can
carry out what it reads (`F`). -/
def Reads (F : Slave → Message → Prop) (P Q : Slave → Prop) : Slave → List Message → Prop
  | s, [] => P s ∧ Q s
  | s, m :: ms => P s ∧ (F s m → Reads F P Q (s.proc m) ms)

namespace Reads

variable {F F' : Slave → Message → Prop} {P P' Q Q' : Slave → Prop} {s : Slave} {m : Message}
  {ms ms' : List Message}

/-- What holds before the messages. -/
theorem here (h : Reads F P Q s ms) : P s := by
  cases ms with
  | nil => exact h.1
  | cons m ms => exact h.1

/-- More messages on the way. -/
theorem append (hF : ∀ s, ∀ m ∈ ms, F' s m → F s m) (hP : ∀ s, P s → P' s)
    (hQ : ∀ s, P s → Q s → Reads F' P' Q' s ms') :
    ∀ {s}, Reads F P Q s ms → Reads F' P' Q' s (ms ++ ms') := by
  induction ms with
  | nil =>
      intro s h
      exact hQ s h.1 h.2
  | cons m ms ih =>
      intro s h
      show P' s ∧ (F' s m → Reads F' P' Q' (s.proc m) (ms ++ ms'))
      refine ⟨hP s h.1, fun hm => ?_⟩
      exact ih (fun s m hmem => hF s m (List.mem_cons_of_mem _ hmem))
        (h.2 (hF s m List.mem_cons_self hm))

/-- What the messages bring may be weakened. -/
theorem mono (hF : ∀ s, ∀ m ∈ ms, F' s m → F s m) (hP : ∀ s, P s → P' s)
    (hQ : ∀ s, P s → Q s → Q' s) (h : Reads F P Q s ms) : Reads F' P' Q' s ms := by
  rw [← List.append_nil ms]
  refine append hF hP ?_ h
  exact fun s hs hq => ⟨hP s hs, hQ s hs hq⟩

/-- One message. -/
theorem one (hs : P s) (hm : F s m → P (s.proc m) ∧ Q (s.proc m)) : Reads F P Q s [m] :=
  ⟨hs, hm⟩

end Reads

end Slave

/-! ## The client -/

namespace Client

/-- The copy has not begun. -/
def AtStart (c : Client) : Prop := c.status = .copy ∧ c.lastKey = []

instance (c : Client) : Decidable c.AtStart := inferInstanceAs (Decidable (_ ∧ _))

/-- The last key copied, and behind the last key in the status `SYNC`. -/
def cursor (c : Client) : WithBot (WithTop Bytes) := if c.status = .copy then cursorAt c.lastKey else ⊤

/-- The key of the entry that is to be sent. -/
def hand (c : Client) : Option Bytes :=
  match c.point with
  | .send log => some log.key
  | _ => none

variable {c : Client} {log : Binlog}

/-- In a copy the place is that of the last key. -/
theorem cursor_of_copy (h : c.status = .copy) : c.cursor = cursorAt c.lastKey := if_pos h

/-- Once it is in sync, the place is behind all keys. -/
theorem cursor_of_sync (h : c.status = .sync) : c.cursor = ⊤ := if_neg (by rw [h]; decide)

/-- Behind `sync` the thread is not about to send. -/
theorem behindSync_ne_send (c : Client) (log : Binlog) : c.behindSync ≠ .send log := by
  unfold behindSync
  split <;> simp

/-- A thread that is not about to send has no entry in hand. -/
theorem hand_eq_none (h : ∀ log, c.point ≠ .send log) : c.hand = none := by
  unfold hand
  split
  · exact absurd ‹_› (h _)
  · rfl

theorem hand_eq_none_iff : c.hand = none ↔ ∀ log, c.point ≠ .send log := by
  refine ⟨fun h log hpoint => ?_, hand_eq_none⟩
  rw [hand, hpoint] at h
  cases h

/-! ## Its turns -/

/-- An entry that is found is one of the binlog. -/
theorem get_of_findLog {db : Db} {seq : ℕ} (hlogs : LogsUpTo seq db) (h : c.findLog db = some log) :
    db.get (encodeSeqKey log.seq) = some (.log log) ∧ 0 < log.seq ∧ log.seq ≤ seq := by
  have hget : db.get (encodeSeqKey log.seq) = some (.log log) := by
    unfold findLog at h
    split at h
    · exact get_of_findLast hlogs h
    · exact get_of_findNext hlogs h
  obtain ⟨l, -, hv, hpos, hle⟩ := hlogs _ _ hget (head_encodeSeqKey _)
  obtain rfl : log = l := Value.log.inj hv
  exact ⟨hget, hpos, hle⟩

/-- Where none is found, there is none behind `last_seq`. -/
theorem get_of_findLog_eq_none {db : Db} {seq n : ℕ} (hlogs : LogsUpTo seq db) (hbound : seq < 2 ^ 64 - 1)
    (hle : c.lastSeq ≤ seq) (h : c.findLog db = none) (hn : c.lastSeq < n) (hn' : n < 2 ^ 64 - 1) :
    db.get (encodeSeqKey n) = none := by
  unfold findLog at h
  split at h
  · exact get_of_findLast_eq_none hlogs hbound h hn'
  · rw [Nat.mod_eq_of_lt (by omega)] at h
    exact get_of_findNext_eq_none hlogs hbound h hn (by omega)

/-- What a turn of `sync` can do. -/
theorem syncTurn_cases {db : Db} (hin : (c.syncTurn db).1.status ≠ .outOfSync) :
    c.findLog db = none ∧ c.syncTurn db = ({ c with point := c.behindSync }, []) ∨
      ∃ log, c.findLog db = some log ∧
        (c.status = .copy ∧ c.lastKey < log.key ∧
            c.syncTurn db = ({ c with lastSeq := log.seq, iter := none }, []) ∨
          ¬ (c.status = .copy ∧ c.lastKey < log.key) ∧
            (c.lastSeq = 0 ∨ log.seq = (c.lastSeq + 1) % 2 ^ 64) ∧
            (log.type = .mirror ∨
              c.syncTurn db = ({ c with lastSeq := log.seq, point := .send log }, []))) := by
  unfold syncTurn at hin ⊢
  cases hfind : c.findLog db with
  | none => exact Or.inl ⟨rfl, rfl⟩
  | some log =>
      rw [hfind] at hin
      dsimp only at hin ⊢
      refine Or.inr ⟨log, rfl, ?_⟩
      by_cases hdrop : c.status = .copy ∧ c.lastKey < log.key
      · exact Or.inl ⟨hdrop.1, hdrop.2, if_pos hdrop⟩
      · rw [if_neg hdrop] at hin ⊢
        by_cases hgap : c.lastSeq ≠ 0 ∧ log.seq ≠ (c.lastSeq + 1) % 2 ^ 64
        · rw [if_pos hgap] at hin
          exact absurd rfl hin
        · rw [if_neg hgap]
          refine Or.inr ⟨hdrop, by tauto, ?_⟩
          by_cases hmirror : log.type = .mirror
          · exact Or.inl hmirror
          · exact Or.inr (if_neg fun h => hmirror h.1)

/-- A turn of `sync` does not begin a copy. -/
theorem atStart_of_syncTurn {db : Db} (h : (c.syncTurn db).1.AtStart) : c.AtStart := by
  unfold syncTurn at h
  split at h
  · exact h
  · dsimp only at h
    split at h
    · exact h
    · split at h
      · exact absurd h.1 (by simp [outOfSync])
      · split at h
        · split at h
          · unfold noop at h
            split at h
            · exact h
            · exact h
          · exact h
        · exact h

/-- The thread goes on after an entry has been sent. -/
theorem fst_sendLog (db : Db) (log : Binlog) (c : Client) :
    (c.sendLog db log).1 = { c with point := c.behindSync } := by
  unfold sendLog
  dsimp only
  cases db.get log.key with
  | none => split <;> rfl
  | some val => split <;> rfl

/-- A turn of the copy does not begin a copy. -/
theorem atStart_of_copyTurn {db : Db} (h : (c.copyTurn db).1.AtStart) : c.AtStart := by
  unfold copyTurn at h
  split at h
  · cases h.1
  · exact h
  · split at h
    · cases h.1
    · dsimp only at h
      split at h
      · cases h.2
      · cases h.2

/-- At the start of a copy `noop` tells no number. -/
theorem noop_of_atStart (h : c.AtStart) :
    c.noop = (c, [⟨⟨0, .noop, .none, []⟩, some (ascii "noop")⟩]) :=
  if_pos h

/-- Else it tells the last one. -/
theorem noop_of_not_atStart (h : ¬ c.AtStart) :
    c.noop =
      ({ c with lastNoopSeq := c.lastSeq }, [⟨⟨c.lastSeq, .noop, .none, []⟩, some (ascii "noop")⟩]) :=
  if_neg h

/-- A turn without work does not begin a copy. -/
theorem atStart_of_idleTurn {silent : Bool} (h : (c.idleTurn silent).1.AtStart) : c.AtStart := by
  unfold idleTurn at h
  cases silent with
  | true => exact h
  | false =>
      by_contra hnot
      rw [if_neg (by decide), noop_of_not_atStart hnot] at h
      exact hnot h

/-- The turns: where the thread stands, and what comes of it. -/
inductive Turns (db : Db) (c : Client) : ReplicationStep → Client × List Message → Prop
  | syncTurn (h : c.point = .sync) : Turns db c .syncTurn (c.syncTurn db)
  | sendLog {log : Binlog} (h : c.point = .send log) : Turns db c .sendLog (c.sendLog db log)
  | copyTurn (h : c.point = .copy) : Turns db c .copyTurn (c.copyTurn db)
  | copyBreak (h : c.point = .copy) : Turns db c .copyBreak ({ c with point := .idle }, [])
  | idleTurn (h : c.point = .idle) (silent : Bool) : Turns db c (.idleTurn silent) (c.idleTurn silent)

end Client

/-- The steps of the thread of the master. -/
def ReplicationStep.IsTurn : ReplicationStep → Prop
  | .syncTurn | .sendLog | .copyTurn | .copyBreak | .idleTurn _ => True
  | _ => False

/-- A turn changes what it does, and nothing where the thread stands elsewhere. -/
theorem Replication.step_turn {w : Replication} {l : ReplicationStep} (hl : l.IsTurn) :
    (w.step l = w ∧ ∀ c r, w.client = some c → ¬ c.Turns w.master.db l r) ∨
      ∃ c r, w.client = some c ∧ c.Turns w.master.db l r ∧ w.step l = w.send r := by
  cases hclient : w.client with
  | none =>
      refine Or.inl ⟨?_, fun c r h => by cases h⟩
      cases l with
      | syncTurn | sendLog | copyTurn | copyBreak | idleTurn => simp only [step, hclient]
      | _ => exact hl.elim
  | some c =>
      have hnone : (∀ r, ¬ c.Turns w.master.db l r) →
          ∀ c' r, some c = some c' → ¬ c'.Turns w.master.db l r := by
        rintro h _ r ⟨⟩
        exact h r
      cases l with
      | syncTurn =>
          cases hpoint : c.point with
          | sync => exact Or.inr ⟨c, _, rfl, .syncTurn hpoint, by simp only [step, hclient, hpoint]⟩
          | _ =>
              refine Or.inl ⟨by simp only [step, hclient, hpoint], hnone fun r h => ?_⟩
              cases h with
              | syncTurn h => rw [hpoint] at h; cases h
      | sendLog =>
          cases hpoint : c.point with
          | send log => exact Or.inr ⟨c, _, rfl, .sendLog hpoint, by simp only [step, hclient, hpoint]⟩
          | _ =>
              refine Or.inl ⟨by simp only [step, hclient, hpoint], hnone fun r h => ?_⟩
              cases h with
              | sendLog h => rw [hpoint] at h; cases h
      | copyTurn =>
          cases hpoint : c.point with
          | copy => exact Or.inr ⟨c, _, rfl, .copyTurn hpoint, by simp only [step, hclient, hpoint]⟩
          | _ =>
              refine Or.inl ⟨by simp only [step, hclient, hpoint], hnone fun r h => ?_⟩
              cases h with
              | copyTurn h => rw [hpoint] at h; cases h
      | copyBreak =>
          cases hpoint : c.point with
          | copy => exact Or.inr ⟨c, _, rfl, .copyBreak hpoint, by simp only [step, hclient, hpoint]⟩
          | _ =>
              refine Or.inl ⟨by simp only [step, hclient, hpoint], hnone fun r h => ?_⟩
              cases h with
              | copyBreak h => rw [hpoint] at h; cases h
      | idleTurn silent =>
          cases hpoint : c.point with
          | idle =>
              exact Or.inr ⟨c, _, rfl, .idleTurn hpoint silent, by simp only [step, hclient, hpoint]⟩
          | _ =>
              refine Or.inl ⟨by simp only [step, hclient, hpoint], hnone fun r h => ?_⟩
              cases h with
              | idleTurn h => rw [hpoint] at h; cases h
      | _ => exact hl.elim

end Ssdb
