/-
# What the slave does with a message

An entry about a record sets that record in the store of the slave, or removes it, and nothing else
(`Slave.replay_set`, `Slave.replay_remove`); the items of queues do not touch key-value pairs, hashes
and sorted sets (`Slave.replay_push`).
-/
import DoudizhuBackend.Ssdb.ReplicaRecords

namespace Ssdb

/-! ## One record -/

/-- Calls on the keys of one record change that record. -/
theorem content_apply_update {P : Bytes → Prop} {ws : List Write} (hws : ∀ w ∈ ws, w.OnKeys P)
    {k : Bytes} (hk : IsReplicated k) (hP : ∀ l, P l → l = k ∨ ¬ IsReplicated l) (db : Db) :
    Db.content (db.apply ws) =
      Function.update db.content k (((db.apply ws).get k).map Value.image) := by
  funext l
  rcases eq_or_ne l k with rfl | hne
  · rw [Function.update_self, Db.content_of_isReplicated hk]
  · rw [Function.update_of_ne hne]
    by_cases hl : IsReplicated l
    · rw [Db.content_of_isReplicated hl, Db.content_of_isReplicated hl, get_apply_of_onKeys hws]
      intro hPl
      rcases hP l hPl with heq | hnot
      · exact hne heq
      · exact hnot hl
    · rw [Db.content_of_not hl, Db.content_of_not hl]

theorem eq_or_not_of_isFieldKey {name key l : Bytes} (h : IsFieldKey name key l) :
    l = encodeHashKey name key ∨ ¬ IsReplicated l := by
  rcases h with rfl | rfl
  · exact Or.inl rfl
  · exact Or.inr (not_isReplicated_cons (by decide) _)

theorem eq_or_not_of_isMemberKey {name key l : Bytes} (h : IsMemberKey name key l) :
    l = encodeZsetKey name key ∨ ¬ IsReplicated l := by
  rcases h with rfl | rfl | ⟨score, rfl⟩
  · exact Or.inl rfl
  · exact Or.inr (not_isReplicated_cons (by decide) _)
  · exact Or.inr (not_isReplicated_cons (by decide) _)

section Operations

variable {db : Db} (hdb : db.IsStore) {name key : Bytes} (logType : BinlogType)

theorem content_kset (hkey : key ≠ []) (val : Bytes) :
    Db.content (db.apply (Kv.set key val logType).2) =
      Function.update db.content (encodeKvKey key) (some val) := by
  have hget := congrFun (Kv.get_apply_set db hkey val logType) key
  rw [Function.update_self] at hget
  have hon : ∀ w ∈ (Kv.set key val logType).2, w.OnKeys (· = encodeKvKey key) := by
    intro w hw
    rw [Kv.set, if_neg hkey] at hw
    simp only [List.mem_cons, List.not_mem_nil, or_false] at hw
    rcases hw with rfl | rfl
    · rfl
    · trivial
  rw [content_apply_update hon (Or.inl rfl) (fun l => Or.inl), ← hget, Kv.get]

theorem content_kdel : Db.content (db.apply (Kv.del key logType).2) =
    Function.update db.content (encodeKvKey key) none := by
  have hget := congrFun (Kv.get_apply_del db key logType) key
  rw [Function.update_self] at hget
  have hon : ∀ w ∈ (Kv.del key logType).2, w.OnKeys (· = encodeKvKey key) := by
    intro w hw
    simp only [Kv.del, List.mem_cons, List.not_mem_nil, or_false] at hw
    rcases hw with rfl | rfl
    · rfl
    · trivial
  rw [content_apply_update hon (Or.inl rfl) (fun l => Or.inl), ← hget, Kv.get]

include hdb

theorem content_hset (hfield : IsField name key) (val : Bytes) :
    Db.content (db.apply (hset db name key val logType).2) =
      Function.update db.content (encodeHashKey name key) (some val) := by
  obtain ⟨content, keys, hh⟩ := hdb.hashes.hashes name
  obtain ⟨keys', hh'⟩ := hh.hsetWrites_spec hfield val logType
  rw [hset_writes, content_apply_update (onField_hsetWrites db name key val logType)
    (Or.inr (Or.inl rfl)) (fun l => eq_or_not_of_isFieldKey), hh'.field, Function.update_self]
  rfl

theorem content_hdel : Db.content (db.apply (hdel db name key logType).2) =
    Function.update db.content (encodeHashKey name key) none := by
  obtain ⟨content, keys, hh⟩ := hdb.hashes.hashes name
  rw [content_apply_update (onField_hdel db name key logType) (Or.inr (Or.inl rfl))
    (fun l => eq_or_not_of_isFieldKey), (hh.hdel_spec key logType).field, Function.update_self]
  rfl

theorem content_zset (hfield : IsField name key) {score : ℤ} (hscore : IsInt64 score) :
    Db.content (db.apply (zset db name key (str score) logType).2) =
      Function.update db.content (encodeZsetKey name key) (some (str score)) := by
  obtain ⟨content, keys, hz⟩ := hdb.zsets name
  obtain ⟨keys', hz'⟩ := hz.zsetWrites_spec hfield.name_ne_nil hfield.key_ne_nil hfield.name_short
    hfield.key_short (str score) logType
  rw [zset_writes, content_apply_update (onMember_zsetWrites db name key _ logType)
    (Or.inr (Or.inr rfl)) (fun l => eq_or_not_of_isMemberKey), hz'.member, Function.update_self,
    strtoll_str hscore]
  rfl

theorem content_zdel (hfield : IsField name key) :
    Db.content (db.apply (zdel db name key logType).2) =
      Function.update db.content (encodeZsetKey name key) none := by
  obtain ⟨content, keys, hz⟩ := hdb.zsets name
  obtain ⟨keys', hz'⟩ := hz.zdel_spec hfield.name_short hfield.key_short logType
  rw [content_apply_update (onMember_zdel db name key logType)
    (Or.inr (Or.inr rfl)) (fun l => eq_or_not_of_isMemberKey), hz'.member, Function.update_self]
  rfl

end Operations

/-- Queues are no part of the content. -/
theorem content_apply_queue {ws : List Write} (hws : ∀ w ∈ ws, w.OnKeys Family.queue.Holds) (db : Db) :
    Db.content (db.apply ws) = db.content := by
  apply Db.content_congr
  intro k hk
  apply get_apply_of_onKeys hws
  intro hq
  rcases hk with h | h | h
  · exact absurd (Family.eq_of_holds hq (show Family.kv.Holds k from h)) (by decide)
  · exact absurd (Family.eq_of_holds hq (show Family.hash.Holds k from Or.inl h)) (by decide)
  · exact absurd (Family.eq_of_holds hq (show Family.zset.Holds k from Or.inl h)) (by decide)

/-! ## Messages -/

namespace Slave

variable {s : Slave} {m : Message}

theorem checked_of_ne {r : ℤ × List Write} (h : r.1 ≠ -1) : checked r = some r.2 := if_neg h

theorem checked_of_eq {r : ℤ × List Write} {ret : ℤ} (h : r.1 = ret) (hret : ret ≠ -1) :
    checked r = some r.2 :=
  checked_of_ne (h ▸ hret)

/-- **An entry with a value sets its record.** -/
theorem replay_set (hs : s.db.IsStore) (hcmd : entryCommand true m.log.key = some m.log.cmd) {v : Bytes}
    (hval : m.val = some v) (hrec : IsRecord m.log.key v) :
    ∃ ws, s.replay m = some ws ∧ Db.IsStore (s.db.apply ws) ∧
      Db.content (s.db.apply ws) = Function.update s.db.content m.log.key (some v) := by
  obtain ⟨⟨seq, type, cmd, k⟩, val⟩ := m
  obtain rfl : val = some v := hval
  obtain ⟨hnamed, hne, hscore⟩ := hrec
  dsimp only at hcmd hnamed hne hscore ⊢
  cases hnamed with
  | kv key =>
      obtain rfl : .kset = cmd := Option.some.inj hcmd
      have hkey : key ≠ [] := fun hnil => hne (by rw [hnil])
      have hret : (Kv.set key v s.logType).1 = 1 := by rw [Kv.set, if_neg hkey]
      exact ⟨_, checked_of_eq hret (by decide), hs.step (.write (.set key v) s.logType),
        content_kset _ hkey v⟩
  | hash hfield =>
      rename_i name key
      obtain rfl : .hset = cmd := Option.some.inj hcmd
      refine ⟨(hset s.db name key v s.logType).2, ?_, hs.step (.write (.hset name key v) s.logType),
        content_hset hs _ hfield v⟩
      rw [replay]
      dsimp only
      rw [decodeHashKey_encode hfield.name_short]
      apply checked_of_ne
      rw [hset_ret, if_pos hfield]
      split <;> decide
  | zset hfield =>
      rename_i name key
      obtain rfl : .zset = cmd := Option.some.inj hcmd
      obtain ⟨score, hint, rfl⟩ := hscore rfl
      refine ⟨(zset s.db name key (str score) s.logType).2, ?_,
        hs.step (.write (.zset name key (str score)) s.logType), content_zset hs _ hfield hint⟩
      rw [replay]
      dsimp only
      rw [decodeZsetKey_encode hfield.name_short hfield.key_short]
      apply checked_of_ne
      rw [Ne, zset_ret_neg]
      exact fun h => ((isField_iff name key).mp hfield).2 h.2

/-- **An entry of a removal removes its record.** -/
theorem replay_remove (hs : s.db.IsStore) (hcmd : entryCommand false m.log.key = some m.log.cmd)
    (hnamed : IsNamed m.log.key) :
    ∃ ws, s.replay m = some ws ∧ Db.IsStore (s.db.apply ws) ∧
      Db.content (s.db.apply ws) = Function.update s.db.content m.log.key none := by
  obtain ⟨⟨seq, type, cmd, k⟩, val⟩ := m
  dsimp only at hcmd hnamed ⊢
  cases hnamed with
  | kv key =>
      obtain rfl : .kdel = cmd := Option.some.inj hcmd
      have hret : (Kv.del key s.logType).1 = 1 := rfl
      exact ⟨_, checked_of_eq hret (by decide), hs.step (.write (.del key) s.logType), content_kdel _⟩
  | hash hfield =>
      rename_i name key
      obtain rfl : .hdel = cmd := Option.some.inj hcmd
      refine ⟨(hdel s.db name key s.logType).2, ?_, hs.step (.write (.hdel name key) s.logType),
        content_hdel hs _⟩
      rw [replay]
      dsimp only
      rw [decodeHashKey_encode hfield.name_short]
      apply checked_of_ne
      rw [hdel_short hfield.name_short hfield.key_short]
      split <;> simp
  | zset hfield =>
      rename_i name key
      obtain rfl : .zdel = cmd := Option.some.inj hcmd
      refine ⟨(zdel s.db name key s.logType).2, ?_, hs.step (.write (.zdel name key) s.logType),
        content_zdel hs _ hfield⟩
      rw [replay]
      dsimp only
      rw [decodeZsetKey_encode hfield.name_short hfield.key_short]
      apply checked_of_ne
      rw [zdel, zdelOne, if_neg ((isField_iff name key).mp hfield).2]
      cases zget s.db name key <;> simp

/-- The queue of an item has room. -/
def Fits (s : Slave) (m : Message) : Prop :=
  m.log.cmd = .qpushBack → ∀ name seq, decodeQitemKey m.log.key = some (name, seq) →
    0 < room s.db name .back

/-- An item of a queue leaves the records alone. -/
theorem replay_push (hs : s.db.IsStore) (hcmd : m.log.cmd = .qpushBack) (hfits : s.Fits m) :
    ∃ ws, s.replay m = some ws ∧ Db.IsStore (s.db.apply ws) ∧
      Db.content (s.db.apply ws) = s.db.content := by
  have hskip : ∃ ws, some ([] : List Write) = some ws ∧ Db.IsStore (s.db.apply ws) ∧
      Db.content (s.db.apply ws) = s.db.content := ⟨[], rfl, hs, rfl⟩
  obtain ⟨⟨seq, type, cmd, k⟩, val⟩ := m
  obtain rfl : cmd = .qpushBack := hcmd
  rw [replay]
  dsimp only
  split
  · rename_i v name n hdecode
    split
    · exact hskip
    · rw [if_neg (by decide), if_pos rfl]
      obtain ⟨front, items, hq⟩ := hs.queues name
      have hret := (hq.qpush_spec (hfits rfl name n hdecode) v s.logType).1
      refine ⟨(qpush s.db name v .back s.logType).2, checked_of_ne ?_,
        hs.step (.write (.qpush name v .back) s.logType), ?_⟩
      · rw [qpushBack, hret]
        omega
      · exact content_apply_queue (Operation.onFamily (.qpush name v .back) s.db s.logType) s.db
  · exact hskip

end Slave

end Ssdb
