/-
# What the slave does with an entry about a queue

A slave pushes, takes or replaces an item of its own queue, under its own numbers
(`Slave.proc_push`, `Slave.proc_pop`, `Slave.proc_set`); an entry that is not about the queue leaves it
alone (`Slave.proc_other`).  The number in the entry counts only when an item is replaced: it is that of
the master.
-/
import DoudizhuBackend.Ssdb.QueueNumbers
import DoudizhuBackend.Ssdb.ReplicaSlave

namespace Ssdb

/-! ## Replacing by number -/

theorem onQueue_qsetBySeq (db : Db) (name : Bytes) (seq : ℕ) (item : Bytes) (logType : BinlogType) :
    ∀ w ∈ (qsetBySeq db name seq item logType).2, w.OnKeys (IsQueueKey name) := by
  have hset : ∀ w ∈ [Write.put (encodeQitemKey name seq) (.bytes item),
      .addLog logType .qset (encodeQitemKey name seq)], w.OnKeys (IsQueueKey name) := by
    intro w hw
    simp only [List.mem_cons, List.not_mem_nil, or_false] at hw
    rcases hw with rfl | rfl
    · exact Or.inr ⟨_, rfl⟩
    · trivial
  intro w hw
  unfold qsetBySeq at hw
  dsimp only at hw
  split at hw
  · cases hw
  · split at hw
    · cases hw
    · split at hw
      · cases hw
      · exact hset w hw
    · split at hw
      · cases hw
      · exact hset w hw

/-- Under the number of an item, `qset_by_seq` does what `qset` does at its index. -/
theorem Db.IsQueue.qsetBySeq_eq {db : Db} {name : Bytes} {front : ℕ} {items : List Bytes}
    (h : db.IsQueue name front items) {i : ℕ} (hi : i < items.length) (item : Bytes) (logType : BinlogType) :
    qsetBySeq db name (front + i) item logType = qset db name i item logType := by
  have hne : items ≠ [] := List.ne_nil_of_length_pos (by omega)
  have hbounds := h.front_lt hne
  have hupper := h.upper hne
  simp only [qitemMaxSeq] at hupper
  have hfront : qgetUint64 db name qfrontSeq = .found front := h.qgetUint64_of_ne_nil .front hne
  rw [h.qset_eq (by omega), indexPosition, if_pos (by omega), Int.toNat_natCast, qsetBySeq, h.qsize_eq,
    if_neg (by omega), hfront]
  exact if_neg (by omega)

/-! ## Entries -/

section Entries

variable {name : Bytes} {l : Binlog}

theorem queueEntry_push {e : QueueEnd} {n : ℕ} :
    queueEntry name l = .push e.listEnd n ↔ l.cmd = e.pushCommand ∧ itemNumber name l.key = some n := by
  unfold queueEntry
  cases e <;> cases hcmd : l.cmd <;> cases hnumber : itemNumber name l.key <;>
    simp [QueueEnd.listEnd, QueueEnd.pushCommand] <;> split <;> simp

theorem queueEntry_pop {e : QueueEnd} :
    queueEntry name l = .pop e.listEnd ↔ l.cmd = e.popCommand ∧ l.key = name := by
  unfold queueEntry
  cases e <;> cases hcmd : l.cmd <;> cases hnumber : itemNumber name l.key <;>
    simp [QueueEnd.listEnd, QueueEnd.popCommand] <;> split <;> simp

theorem queueEntry_set {n : ℕ} :
    queueEntry name l = .set n ↔ l.cmd = .qset ∧ itemNumber name l.key = some n := by
  unfold queueEntry
  cases hcmd : l.cmd <;> cases hnumber : itemNumber name l.key <;> simp <;> split <;> simp

theorem decode_of_itemNumber {k : Bytes} {n : ℕ} (h : itemNumber name k = some n) :
    decodeQitemKey k = some (name, n) ∧ qitemMinSeq ≤ n ∧ n ≤ qitemMaxSeq := by
  unfold itemNumber at h
  split at h
  · rename_i name' m hdecode
    split at h
    · rename_i hif
      obtain rfl := Option.some.inj h
      rw [hdecode, hif.1]
      exact ⟨rfl, hif.2⟩
    · cases h
  · cases h

end Entries

namespace Slave

variable {s : Slave} {m : Message} {name : Bytes} {front : ℕ} {items : List Bytes}

theorem eq_of_checked {r : ℤ × List Write} {ws : List Write} (h : checked r = some ws) : ws = r.2 := by
  unfold checked at h
  split at h
  · cases h
  · exact (Option.some.inj h).symm

/-- A message changes the database by what it is replayed as, or not at all. -/
theorem proc_db (s : Slave) (m : Message) :
    (s.proc m).db = s.db ∨ ∃ ws, s.replay m = some ws ∧ (s.proc m).db = s.db.apply ws := by
  have hsync : (s.procSync m).db = s.db ∨ ∃ ws, s.replay m = some ws ∧ (s.procSync m).db = s.db.apply ws := by
    unfold procSync
    cases hws : s.replay m with
    | none => exact Or.inl rfl
    | some ws => exact Or.inr ⟨ws, rfl, rfl⟩
  unfold proc
  cases m.log.type with
  | noop => exact Or.inl rfl
  | ctrl => exact Or.inl rfl
  | copy =>
      dsimp only
      unfold procCopy
      split
      · exact Or.inl rfl
      · exact Or.inl rfl
      · exact hsync
  | sync => exact hsync
  | mirror => exact hsync

/-- Messages that carry an entry or a record are carried out. -/
theorem proc_db_of_replay {ws : List Write} (hws : s.replay m = some ws)
    (hm : m.log.type = .sync ∨ m.log.type = .copy ∧ m.log.cmd = .qpushBack) :
    (s.proc m).db = s.db.apply ws := by
  have hsync : (s.procSync m).db = s.db.apply ws := by
    unfold procSync
    rw [hws]
  rcases hm with htype | ⟨htype, hcmd⟩
  · rw [proc, htype]
    exact hsync
  · rw [proc, htype]
    dsimp only
    rw [procCopy, hcmd]
    exact hsync

/-- **An entry that is not about the queue** leaves it alone. -/
theorem replay_other (hq : s.db.IsQueue name front items) (hentry : queueEntry name m.log = .other)
    {ws : List Write} (hws : s.replay m = some ws) : Db.IsQueue (s.db.apply ws) name front items := by
  have hop : ∀ op : Operation, op.family ≠ .queue → ws = op.writes s.db s.logType →
      Db.IsQueue (s.db.apply ws) name front items := by
    rintro op hop rfl
    exact hq.congr (Operation.get_apply hop s.db s.logType (Or.inr rfl))
      fun seq _ => Operation.get_apply hop s.db s.logType (Or.inl rfl)
  have hnil : some [] = some ws → Db.IsQueue (s.db.apply ws) name front items := by
    intro h
    rw [← Option.some.inj h]
    exact hq
  unfold replay at hws
  unfold queueEntry at hentry
  split at hws
  case h_1 =>
    split at hws
    · exact hop (.set _ _) (fun h => nomatch h) (eq_of_checked hws)
    · exact hnil hws
  case h_2 =>
    split at hws
    · exact hop (.del _) (fun h => nomatch h) (eq_of_checked hws)
    · exact hnil hws
  case h_3 =>
    split at hws
    · exact hop (.hset _ _ _) (fun h => nomatch h) (eq_of_checked hws)
    · exact hnil hws
  case h_4 =>
    split at hws
    · exact hop (.hdel _ _) (fun h => nomatch h) (eq_of_checked hws)
    · exact hnil hws
  case h_5 =>
    split at hws
    · exact hop (.zset _ _ _) (fun h => nomatch h) (eq_of_checked hws)
    · exact hnil hws
  case h_6 =>
    split at hws
    · exact hop (.zdel _ _) (fun h => nomatch h) (eq_of_checked hws)
    · exact hnil hws
  case h_10 hcmd =>
    rw [hcmd] at hentry
    dsimp only at hentry
    rw [eq_of_checked hws]
    refine hq.apply_other (fun hname => ?_) (onQueue_qpop s.db m.log.key .back s.logType)
    rw [if_pos hname.symm] at hentry
    cases hentry
  case h_11 hcmd =>
    rw [hcmd] at hentry
    dsimp only at hentry
    rw [eq_of_checked hws]
    refine hq.apply_other (fun hname => ?_) (onQueue_qpop s.db m.log.key .front s.logType)
    rw [if_pos hname.symm] at hentry
    cases hentry
  case h_12 => exact hnil hws
  all_goals
    -- an item of another queue, or one under a number that is out of range
    rename_i hcmd
    rw [hcmd] at hentry hws
    split at hws
    · rename_i val name' seq _ hdecode
      split at hws
      · exact hnil hws
      · rename_i hrange
        have hne : name ≠ name' := by
          rintro rfl
          have hnumber : itemNumber name m.log.key = some seq := by
            rw [itemNumber, hdecode]
            exact if_pos ⟨rfl, by omega, by omega⟩
          rw [hnumber] at hentry
          cases hentry
        simp only [reduceCtorEq, if_false, if_true] at hws
        rw [eq_of_checked hws]
        refine hq.apply_other hne ?_
        first
          | exact onQueue_qsetBySeq s.db name' seq val s.logType
          | exact onQueue_qpush s.db name' val _ s.logType
    · exact hnil hws

theorem proc_other (hq : s.db.IsQueue name front items) (hentry : queueEntry name m.log = .other) :
    Db.IsQueue (s.proc m).db name front items := by
  rcases s.proc_db m with heq | ⟨ws, hws, heq⟩
  · rwa [heq]
  · rw [heq]
    exact replay_other hq hentry hws

/-- **An item is pushed.** -/
theorem proc_push (hq : s.db.IsQueue name front items) {e : QueueEnd} {n : ℕ} {v : Bytes}
    (hentry : queueEntry name m.log = .push e.listEnd n) (hval : m.val = some v)
    (hm : m.log.type = .sync ∨ m.log.type = .copy ∧ m.log.cmd = .qpushBack) (hroom : 0 < room s.db name e) :
    ∃ front', Db.IsQueue (s.proc m).db name front' (e.listEnd.push v items) := by
  obtain ⟨hcmd, hnumber⟩ := queueEntry_push.mp hentry
  obtain ⟨hdecode, hmin, hmax⟩ := decode_of_itemNumber hnumber
  obtain ⟨hret, hq'⟩ := hq.qpush_spec hroom v s.logType
  have hws : s.replay m = some (qpush s.db name v e s.logType).2 := by
    have hchecked : checked (qpush s.db name v e s.logType) = some (qpush s.db name v e s.logType).2 :=
      checked_of_ne (by rw [hret]; omega)
    have hrange : ¬ (n < qitemMinSeq ∨ qitemMaxSeq < n) := by omega
    unfold replay
    cases e <;> rw [hcmd, hval, hdecode] <;> simp only [QueueEnd.pushCommand] <;> rw [if_neg hrange] <;>
      exact hchecked
  rw [proc_db_of_replay hws hm, ← e.push_eq]
  exact ⟨_, hq'⟩

/-- **An item is taken**, if there is one. -/
theorem proc_pop (hq : s.db.IsQueue name front items) {e : QueueEnd}
    (hentry : queueEntry name m.log = .pop e.listEnd) (htype : m.log.type = .sync) :
    ∃ front', Db.IsQueue (s.proc m).db name front' (e.listEnd.rest items) := by
  obtain ⟨hcmd, hkey⟩ := queueEntry_pop.mp hentry
  have hspec : (qpop s.db name e s.logType).1 ≠ -1 ∧
      ∃ front', Db.IsQueue (s.db.apply (qpop s.db name e s.logType).2.2) name front'
        (e.listEnd.rest items) := by
    rcases eq_or_ne items [] with rfl | hne
    · rw [hq.qpop_nil, ListEnd.rest_nil]
      exact ⟨by decide, front, hq⟩
    · obtain ⟨hret, -, hq'⟩ := hq.qpop_spec e hne s.logType
      rw [hret, ← e.rest_eq]
      exact ⟨by decide, _, hq'⟩
  have hws : s.replay m = some (qpop s.db name e s.logType).2.2 := by
    unfold replay
    cases e <;> rw [hcmd, hkey] <;> exact checked_of_ne hspec.1
  rw [proc_db_of_replay hws (Or.inl htype)]
  exact hspec.2

/-- **An item is replaced**: the number is taken for one of the own queue. -/
theorem proc_set (hq : s.db.IsQueue name front items) {i : ℕ} {v : Bytes}
    (hentry : queueEntry name m.log = .set (front + i)) (hval : m.val = some v) (htype : m.log.type = .sync)
    (hi : i < items.length) : Db.IsQueue (s.proc m).db name front (items.set i v) := by
  obtain ⟨hcmd, hnumber⟩ := queueEntry_set.mp hentry
  obtain ⟨hdecode, hmin, hmax⟩ := decode_of_itemNumber hnumber
  have hindex : -(items.length : ℤ) ≤ (i : ℤ) ∧ (i : ℤ) < items.length := by omega
  have hws : s.replay m = some (qset s.db name i v s.logType).2 := by
    have hrange : ¬ (front + i < qitemMinSeq ∨ qitemMaxSeq < front + i) := by omega
    unfold replay
    rw [hcmd, hval, hdecode]
    simp only [if_true]
    rw [if_neg hrange, hq.qsetBySeq_eq hi]
    exact checked_of_eq (by rw [hq.qset_eq hindex]) (show (1 : ℤ) ≠ -1 by decide)
  have hq' := hq.qset_spec hindex v s.logType
  rw [proc_db_of_replay hws (Or.inl htype)]
  rwa [indexPosition, if_pos (by omega), Int.toNat_natCast] at hq'

end Slave

end Ssdb
