/-
# Expiration of keys

`ssdb-master/src/ssdb/ttl.cpp` and the commands of `proc_kv.cpp` and `serv.cpp` that use it.  The
expiry times of keys are the scores of a reserved sorted set in the database, the TTL list.  The
`ExpirationHandler` keeps the entries that expire first in memory (`fast_keys`), and its thread
deletes keys on the word of that cache.

* The cache is right about every key it deletes (`expire_deletes_only_expired`), unless `flushdb` has
  emptied the database under it.
* No expiry is overlooked (`no_expiry_overlooked`), unless an expiry time is so small that the
  cache takes it for seconds.

Commands run one after another, and so does every call of `expire_loop`: the writers hold the mutex
of the handler.
-/
import DoudizhuBackend.GuardedRun
import DoudizhuBackend.Ssdb.Kv
import DoudizhuBackend.Ssdb.SortedSet
import DoudizhuBackend.Ssdb.ZsetScan

namespace Ssdb

/-! ## The handler -/

/-- `EXPIRATION_LIST_KEY`. -/
def expirationListKey : Bytes := [255, 255, 255, 255, 255] ++ ascii "|EXPIRE_LIST|KV"

/-- `BATCH_SIZE`. -/
def batchSize : ℕ := 1000

/-- `INT64_MAX`. -/
def int64Max : ℤ := 2 ^ 63 - 1

/-- A value of `time_ms()`, milliseconds since 1970. -/
abbrev Time := {t : ℤ // 0 ≤ t ∧ t < 2 ^ 62}

/-- A ttl in seconds: any `int`. -/
abbrev TtlSeconds := {n : ℤ // -2 ^ 31 ≤ n ∧ n < 2 ^ 31}

/-- `ExpirationHandler`. -/
structure ExpirationHandler where
  db : Db
  fastKeys : SortedSet Bytes
  firstTimeout : ℤ

/-- The time at which a key expires. -/
def expiry (now : Time) (ttl : TtlSeconds) : ℤ := now.val + ttl.val * 1000

/-- The rule for the scores of older versions, which were seconds. -/
def rescale (score : ℤ) : ℤ := if score < 2000000000 then score * 1000 else score

namespace ExpirationHandler

/-- A new handler for a database. -/
def new (db : Db) : ExpirationHandler := ⟨db, .empty, 0⟩

/-- What `set_ttl` does to the cache. -/
def cacheTtl (fastKeys : SortedSet Bytes) (key : Bytes) (expired : ℤ) : SortedSet Bytes :=
  if fastKeys.items ≠ [] ∧ expired ≤ fastKeys.maxScore then
    let added := fastKeys.add key expired
    if batchSize < added.size then added.popBack else added
  else fastKeys.del key

/-- `set_ttl`. -/
def setTtl (h : ExpirationHandler) (key : Bytes) (ttl : TtlSeconds) (now : Time) :
    ExpirationHandler :=
  let expired := expiry now ttl
  let (ret, ws) := zset h.db expirationListKey key (str expired) .sync
  if ret = -1 then h
  else
    { db := h.db.apply ws
      fastKeys := cacheTtl h.fastKeys key expired
      firstTimeout := if expired < h.firstTimeout then expired else h.firstTimeout }

/-- `del_ttl`; nothing is looked up while no expiration is known. -/
def delTtl (h : ExpirationHandler) (key : Bytes) : ExpirationHandler :=
  if h.firstTimeout = int64Max then h
  else
    { h with
      db := h.db.apply (zdel h.db expirationListKey key .sync).2
      fastKeys := h.fastKeys.del key }

/-- `load_expiration_keys_from_db`. -/
def loadExpirationKeysFromDb (h : ExpirationHandler) (num : ℕ) : SortedSet Bytes :=
  (zscan h.db expirationListKey [] [] [] num).foldl
    (fun m member => m.add member.1 (rescale (strtoll member.2))) h.fastKeys

/-- The cache that a turn of the thread works on: an empty one is loaded. -/
def turnKeys (h : ExpirationHandler) : SortedSet Bytes :=
  if h.fastKeys.items = [] then h.loadExpirationKeysFromDb batchSize else h.fastKeys

/-- `expire_loop`. -/
def expireLoop (h : ExpirationHandler) (now : Time) : ExpirationHandler :=
  match h.turnKeys.front with
  | none => { h with fastKeys := h.turnKeys, firstTimeout := int64Max }
  | some (score, key) =>
      if score ≤ now.val then
        let db := h.db.apply (Kv.del key .sync).2
        { db := db.apply (zdel db expirationListKey key .sync).2
          fastKeys := h.turnKeys.popFront
          firstTimeout := score }
      else { h with fastKeys := h.turnKeys, firstTimeout := score }

/-- `thread_func` waits while this holds. -/
def Sleeping (h : ExpirationHandler) (now : Time) : Prop := now.val < h.firstTimeout

/-! ## Commands -/

/-- A command of a client, or a turn of the thread. -/
inductive Step where
  | set (key val : Bytes)
  | setx (key val : Bytes) (ttl : TtlSeconds) (now : Time)
  | expire (key : Bytes) (ttl : TtlSeconds) (now : Time)
  | del (key : Bytes)
  | multiSet (kvs : List (Bytes × Bytes))
  | multiDel (keys : List Bytes)
  | flushdb
  | expireLoop (now : Time)

/-- The handler and the store after a step. -/
def step (h : ExpirationHandler) : Step → ExpirationHandler
  | .set key val => { h with db := h.db.apply (Kv.set key val .sync).2 }
  | .setx key val ttl now =>
      setTtl { h with db := h.db.apply (Kv.set key val .sync).2 } key ttl now
  | .expire key ttl now => if (Kv.get h.db key).isSome then h.setTtl key ttl now else h
  | .del key => delTtl { h with db := h.db.apply (Kv.del key .sync).2 } key
  | .multiSet kvs => { h with db := h.db.apply (Kv.multiSet kvs .sync).2 }
  | .multiDel keys => keys.foldl delTtl { h with db := h.db.apply (Kv.multiDel keys .sync).2 }
  -- `SSDBImpl::flushdb` removes every record and knows nothing of the handler
  | .flushdb => { h with db := .empty }
  | .expireLoop now => h.expireLoop now

end ExpirationHandler

/-- The expiry time that the TTL list gives for a key. -/
def ttlOf (db : Db) (key : Bytes) : Option ℤ := (zget db expirationListKey key).map strtoll

/-! ## The TTL list -/

/-- The TTL list in the database maps keys to expiry times by `content`. -/
structure IsTtlList (db : Db) (content : Bytes → Option ℤ) : Prop where
  zset : ∃ keys, db.IsZset expirationListKey content keys
  scores : db.ZscoreKeys
  nonempty : content [] = none

/-- The name of the list is short enough for a sorted set. -/
theorem expirationListKey_short : IsShort expirationListKey := by
  show expirationListKey.length ≤ 255
  decide

theorem expirationListKey_ne_nil : expirationListKey ≠ [] := by decide

/-- The time of an expiration fits 64 bits. -/
theorem isInt64_expiry (now : Time) (ttl : TtlSeconds) : IsInt64 (expiry now ttl) := by
  have hnow := now.property
  have httl := ttl.property
  constructor <;> simp only [expiry] <;> omega

namespace IsTtlList

variable {db : Db} {content : Bytes → Option ℤ}

/-- In the empty store nothing expires. -/
theorem empty : IsTtlList .empty fun _ => none := by
  refine ⟨⟨[], ?_⟩, .empty, rfl⟩
  constructor
  case member => exact fun key => rfl
  case score => exact fun key s hs => rfl
  case size => rfl
  case nodup => exact List.nodup_nil
  case mem_keys => exact fun key => by simp
  case isInt64 => exact fun key s hs => by cases hs

/-- `ttl` reads the list. -/
theorem ttlOf_eq (h : IsTtlList db content) (key : Bytes) : ttlOf db key = content key := by
  obtain ⟨keys, hz⟩ := h.zset
  rw [ttlOf, hz.zget_eq]
  cases hc : content key with
  | none => rfl
  | some s =>
      show some (strtoll (str s)) = some s
      rw [strtoll_str (hz.isInt64 key s hc)]

/-- The keys in the list are short, since they have a `ZSCORE` record. -/
theorem short (h : IsTtlList db content) {key : Bytes} {s : ℤ} (hs : content key = some s) :
    IsShort key := by
  obtain ⟨keys, hz⟩ := h.zset
  have hint := hz.isInt64 key s hs
  have hget := hz.score key s hint
  rw [if_pos hs] at hget
  obtain ⟨name', key', s', hname', hkey', -, heq⟩ := h.scores _ _ hget rfl
  obtain ⟨-, hkey, -⟩ := encodeZscoreKey_inj hname' hkey' heq.symm
  rw [← hkey]
  exact hkey'

/-- Writes of key-value pairs do not concern it. -/
theorem apply_kv (h : IsTtlList db content) {ws : List Write} (hws : ∀ w ∈ ws, w.OnKeys Kv.IsKey) :
    IsTtlList (db.apply ws) content := by
  obtain ⟨keys, hz⟩ := h.zset
  have hget : ∀ k : Bytes, k.head? ≠ some DataType.KV → (db.apply ws).get k = db.get k :=
    fun k hk => get_apply_of_onKeys hws hk db
  refine ⟨⟨keys, hz.congr ?_ ?_ ?_⟩, ?_, h.nonempty⟩
  · intro key
    apply hget
    show some DataType.ZSET ≠ some DataType.KV
    decide
  · intro key score
    apply hget
    show some DataType.ZSCORE ≠ some DataType.KV
    decide
  · apply hget
    show some DataType.ZSIZE ≠ some DataType.KV
    decide
  · apply h.scores.apply
    apply putsScores_of_onKeys _ hws
    intro k hk
    rw [show k.head? = some DataType.KV from hk]
    decide

/-- The list after a `zset`; an empty key is not entered. -/
theorem set (h : IsTtlList db content) {key : Bytes} (hkey : IsShort key) {e : ℤ} (he : IsInt64 e) :
    IsTtlList (db.apply (Ssdb.zset db expirationListKey key (str e) .sync).2)
      (if key = [] then content else Function.update content key (some e)) := by
  obtain ⟨keys, hz⟩ := h.zset
  rw [zset_writes]
  have hscores := h.scores.apply (putsScores_zsetWrites db expirationListKey key (str e) .sync)
  by_cases hnil : key = []
  · rw [if_pos hnil, zsetWrites_invalid (by tauto)]
    exact h
  · obtain ⟨keys', hz'⟩ := hz.zsetWrites_spec expirationListKey_ne_nil hnil expirationListKey_short
      hkey (str e) .sync
    rw [strtoll_str he] at hz'
    rw [if_neg hnil]
    refine ⟨⟨keys', hz'⟩, hscores, ?_⟩
    rw [Function.update_of_ne (Ne.symm hnil)]
    exact h.nonempty

/-- The list after a `zdel`. -/
theorem del (h : IsTtlList db content) (key : Bytes) :
    IsTtlList (db.apply (Ssdb.zdel db expirationListKey key .sync).2)
      (Function.update content key none) := by
  obtain ⟨keys, hz⟩ := h.zset
  have hscores := h.scores.apply (putsScores_zdel db expirationListKey key .sync)
  by_cases hkey : IsShort key
  · obtain ⟨keys', hz'⟩ := hz.zdel_spec expirationListKey_short hkey .sync
    refine ⟨⟨keys', hz'⟩, hscores, ?_⟩
    rcases eq_or_ne key [] with rfl | hne
    · exact Function.update_self _ _ _
    · rw [Function.update_of_ne hne.symm]
      exact h.nonempty
  · have hnone : content key = none := by
      cases hc : content key with
      | none => rfl
      | some s => exact absurd (h.short hc) hkey
    rw [zdel_long (by tauto), ← hnone, Function.update_eq_self]
    exact h

/-- The times in the list fit 64 bits. -/
theorem isInt64 (h : IsTtlList db content) {key : Bytes} {s : ℤ} (hs : content key = some s) :
    IsInt64 s := by
  obtain ⟨keys, hz⟩ := h.zset
  exact hz.isInt64 key s hs

/-- What the cache is loaded from: the entries in the order of their expiry. -/
theorem zscan_eq (h : IsTtlList db content) (num : ℕ) :
    ∃ members : List (Bytes × ℤ),
      zscan db expirationListKey [] [] [] num = (members.take num).map (fun p => (p.1, str p.2)) ∧
        members.Pairwise (fun p q => p.2 ≤ q.2) ∧
        (∀ key s, (key, s) ∈ members → content key = some s) ∧
        ∀ key s, content key = some s → -2 ^ 63 < s → s < int64Max → (key, s) ∈ members := by
  obtain ⟨keys, hz⟩ := h.zset
  have hmin : strtoll scoreMin = -2 ^ 63 := by decide
  have hmax : strtoll scoreMax = int64Max := by decide
  have heq := hz.ziterator_eq h.scores expirationListKey_short [] [] [] num
  simp only [if_true, hmin, hmax] at heq
  refine ⟨_, heq, hz.scoreRange_sorted h.scores expirationListKey_short _ _ _, ?_, ?_⟩
  · intro key s hmem
    exact ((hz.mem_scoreRange_map h.scores expirationListKey_short).mp hmem).1
  · intro key s hs hlow hhigh
    have hint := hz.isInt64 key s hs
    rw [hz.mem_scoreRange_map h.scores expirationListKey_short]
    refine ⟨hs, ?_, ?_⟩
    · rw [scoreTail_lt_iff (by decide) hint]
      exact Or.inl hlow
    · apply le_of_lt
      rw [scoreTail_lt_iff hint (by decide)]
      exact Or.inl hhigh

end IsTtlList

/-- `zset` on the list fails exactly for a key that is too long. -/
theorem zset_ttl_ret {db : Db} {key score : Bytes} :
    (zset db expirationListKey key score .sync).1 = -1 ↔ ¬ IsShort key := by
  have hname : ¬ keyLenMax < expirationListKey.length := by decide
  rw [zset_ret_neg, IsShort, not_le]
  constructor
  · rintro ⟨-, hlong⟩
    exact hlong.resolve_left hname
  · intro hlong
    refine ⟨?_, Or.inr hlong⟩
    rintro (hnil | rfl)
    · exact expirationListKey_ne_nil hnil
    · exact absurd hlong (by decide)

namespace ExpirationHandler

variable {h : ExpirationHandler} {key : Bytes}

/-- A key that is too long does not expire. -/
theorem setTtl_long (hkey : ¬ IsShort key) (ttl : TtlSeconds) (now : Time) :
    h.setTtl key ttl now = h := by
  simp only [setTtl, if_pos (zset_ttl_ret.mpr hkey)]

/-- What `set_ttl` does for any other key. -/
theorem setTtl_short (hkey : IsShort key) (ttl : TtlSeconds) (now : Time) :
    h.setTtl key ttl now =
      { db := h.db.apply (zset h.db expirationListKey key (str (expiry now ttl)) .sync).2
        fastKeys := cacheTtl h.fastKeys key (expiry now ttl)
        firstTimeout := if expiry now ttl < h.firstTimeout then expiry now ttl
          else h.firstTimeout } := by
  have hret : ¬ (zset h.db expirationListKey key (str (expiry now ttl)) .sync).1 = -1 := by
    rw [zset_ttl_ret]
    exact not_not.mpr hkey
  simp only [setTtl, if_neg hret]

/-! ## What the cache holds -/

/-- The cache after `set_ttl` holds the key with its time, or keys that it held before. -/
theorem of_mem_cacheTtl {fastKeys : SortedSet Bytes} {expired : ℤ} {p : ℤ × Bytes}
    (hp : p ∈ (cacheTtl fastKeys key expired).items) :
    p = (expired, key) ∨ (p ∈ fastKeys.items ∧ p.2 ≠ key) := by
  rw [cacheTtl] at hp
  split at hp
  · dsimp only at hp
    rw [← SortedSet.mem_add]
    split at hp
    · exact List.dropLast_subset _ hp
    · exact hp
  · exact Or.inr (SortedSet.mem_del.mp hp)

/-- What is loaded comes from the list. -/
theorem of_mem_foldl_add {members : List (Bytes × ℤ)} {p : ℤ × Bytes} : ∀ {m : SortedSet Bytes},
    p ∈ ((members.map fun q => (q.1, str q.2)).foldl
      (fun m member => m.add member.1 (rescale (strtoll member.2))) m).items →
    p ∈ m.items ∨ ∃ q ∈ members, p = (rescale (strtoll (str q.2)), q.1) := by
  induction members with
  | nil => intro m hp; exact Or.inl hp
  | cons q members ih =>
      intro m hp
      rcases ih hp with hp | ⟨r, hr, rfl⟩
      · rcases SortedSet.mem_add.mp hp with rfl | hp
        · exact Or.inr ⟨q, List.mem_cons_self, rfl⟩
        · exact Or.inl hp.1
      · exact Or.inr ⟨r, List.mem_cons_of_mem _ hr, rfl⟩

/-- A key that is loaded, or was there, is in the cache. -/
theorem key_mem_foldl_add {members : List (Bytes × ℤ)} {key : Bytes} : ∀ {m : SortedSet Bytes},
    ((∃ p ∈ m.items, p.2 = key) ∨ ∃ q ∈ members, q.1 = key) →
    ∃ p ∈ ((members.map fun q => (q.1, str q.2)).foldl
      (fun m member => m.add member.1 (rescale (strtoll member.2))) m).items, p.2 = key := by
  induction members with
  | nil =>
      intro m hkey
      rcases hkey with hkey | ⟨q, hq, -⟩
      · exact hkey
      · cases hq
  | cons q members ih =>
      intro m hkey
      apply ih
      rcases eq_or_ne q.1 key with heq | hne
      · exact Or.inl ⟨_, SortedSet.mem_add.mpr (Or.inl rfl), heq⟩
      · rcases hkey with ⟨p, hp, hpk⟩ | ⟨r, hr, hrk⟩
        · refine Or.inl ⟨p, SortedSet.mem_add.mpr (Or.inr ⟨hp, ?_⟩), hpk⟩
          rw [hpk]
          exact hne.symm
        · rcases List.mem_cons.mp hr with rfl | hr
          · exact absurd hrk hne
          · exact Or.inr ⟨r, hr, hrk⟩

/-- The entries that an empty cache is loaded with. -/
theorem load_spec {content : Bytes → Option ℤ} (hlist : IsTtlList h.db content)
    (hempty : h.fastKeys.items = []) :
    ∃ members : List (Bytes × ℤ), members.Pairwise (fun p q => p.2 ≤ q.2) ∧
      (∀ key s, (key, s) ∈ members → content key = some s) ∧
      (∀ key s, content key = some s → -2 ^ 63 < s → s < int64Max → (key, s) ∈ members) ∧
      (∀ p ∈ (h.loadExpirationKeysFromDb batchSize).items,
        ∃ key s, (key, s) ∈ members.take batchSize ∧ p = (rescale s, key)) ∧
      ∀ key s, (key, s) ∈ members.take batchSize →
        ∃ p ∈ (h.loadExpirationKeysFromDb batchSize).items, p.2 = key := by
  obtain ⟨members, hscan, hsorted, hsound, hcomplete⟩ := hlist.zscan_eq batchSize
  refine ⟨members, hsorted, hsound, hcomplete, ?_, ?_⟩
  · intro p hp
    rw [loadExpirationKeysFromDb, hscan] at hp
    rcases of_mem_foldl_add hp with hp | ⟨q, hq, rfl⟩
    · rw [hempty] at hp
      cases hp
    · have hint := hlist.isInt64 (hsound q.1 q.2 (List.mem_of_mem_take hq))
      exact ⟨q.1, q.2, hq, by rw [strtoll_str hint]⟩
  · intro key s hmem
    rw [loadExpirationKeysFromDb, hscan]
    exact key_mem_foldl_add (Or.inr ⟨(key, s), hmem, rfl⟩)

/-! ## Only expired keys are deleted -/

/-- What the cache and the database agree on while the cache is not cut off from it: every key in
the cache is in the TTL list, with the time in the cache or one that was rescaled. -/
structure Cached (h : ExpirationHandler) (content : Bytes → Option ℤ) : Prop where
  list : IsTtlList h.db content
  cached : ∀ p ∈ h.fastKeys.items, p.2 ≠ [] →
    ∃ s, content p.2 = some s ∧ (p.1 = s ∨ p.1 = rescale s)
  /-- The empty key can be in the cache without being in the list, but it never has a value. -/
  noEmptyKey : Kv.get h.db [] = none

/-- Writes to a sorted set keep the values. -/
theorem kvGet_apply_zset {db : Db} {name member : Bytes} {ws : List Write}
    (hws : ∀ w ∈ ws, w.OnKeys (IsMemberKey name member)) (key : Bytes) :
    Kv.get (db.apply ws) key = Kv.get db key := by
  rw [Kv.get, Kv.get, get_apply_of_onKeys hws]
  rintro (heq | heq | ⟨score, heq⟩)
  all_goals
    have := (List.cons.inj heq).1
    revert this
    decide

/-- `set` never writes a value under the empty key. -/
theorem kvGet_set (db : Db) (key val : Bytes) : Kv.get (db.apply (Kv.set key val .sync).2) [] =
    Kv.get db [] := by
  rw [Kv.set]
  split
  · rfl
  · rename_i hne
    rw [Kv.get, Db.apply_put, Db.apply_addLog, Db.apply_nil, OrderedMap.get_put_of_ne]
    · rfl
    · exact fun heq => hne (encodeKvKey_inj heq).symm

/-- Nor does `multi_set`. -/
theorem kvGet_multiSet (db : Db) (kvs : List (Bytes × Bytes)) :
    Kv.get (db.apply (Kv.multiSet kvs .sync).2) [] = Kv.get db [] := by
  rw [Kv.multiSet]
  split
  · rfl
  · rename_i hne
    rw [Kv.get, get_apply_of_onKeys (P := fun k => k ≠ encodeKvKey [])]
    · rfl
    · intro w hw
      obtain ⟨kv, hkv, hw⟩ := List.mem_flatMap.mp hw
      simp only [List.mem_cons, List.not_mem_nil, or_false] at hw
      rcases hw with rfl | rfl
      · exact fun heq => hne ⟨kv, hkv, encodeKvKey_inj heq⟩
      · trivial
    · exact fun hnot => hnot rfl

/-- A deletion stores nothing. -/
theorem kvGet_deletes {ws : List Write} (hws : ∀ w ∈ ws, ∀ k v, w ≠ .put k v) {key : Bytes} :
    ∀ {db : Db}, Kv.get db key = none → Kv.get (db.apply ws) key = none := by
  induction ws with
  | nil => intro db h; exact h
  | cons w ws ih =>
      intro db h
      have ih := @ih fun w hw => hws w (List.mem_cons_of_mem _ hw)
      cases w with
      | put k v => exact absurd rfl (hws _ List.mem_cons_self k v)
      | delete k =>
          apply @ih (OrderedMap.delete db k)
          rw [Kv.get, OrderedMap.get_delete]
          split
          · rfl
          · exact h
      | addLog type cmd key => exact ih h

/-- `del` only deletes. -/
theorem del_deletes (key : Bytes) : ∀ w ∈ (Kv.del key .sync).2, ∀ k v, w ≠ .put k v := by
  intro w hw
  simp only [Kv.del, List.mem_cons, List.not_mem_nil, or_false] at hw
  rcases hw with rfl | rfl <;> exact fun k v heq => by cases heq

/-- `multi_del` only deletes. -/
theorem multiDel_deletes (keys : List Bytes) : ∀ w ∈ (Kv.multiDel keys .sync).2, ∀ k v, w ≠ .put k v := by
  intro w hw
  obtain ⟨key, -, hw⟩ := List.mem_flatMap.mp hw
  simp only [List.mem_cons, List.not_mem_nil, or_false] at hw
  rcases hw with rfl | rfl <;> exact fun k v heq => by cases heq

namespace Cached

variable {content : Bytes → Option ℤ}

/-- `set_ttl` keeps the cache a part of the list. -/
theorem setTtl (hc : h.Cached content) (key : Bytes) (ttl : TtlSeconds) (now : Time) :
    ∃ content', (h.setTtl key ttl now).Cached content' := by
  by_cases hkey : IsShort key
  · rw [setTtl_short hkey]
    refine ⟨_, hc.list.set hkey (isInt64_expiry now ttl), ?_, ?_⟩
    · intro p hp hne
      rcases of_mem_cacheTtl hp with rfl | ⟨hp, hpk⟩
      · exact ⟨_, by rw [if_neg hne, Function.update_self], Or.inl rfl⟩
      · obtain ⟨s, hs, hps⟩ := hc.cached p hp hne
        refine ⟨s, ?_, hps⟩
        split
        · exact hs
        · rw [Function.update_of_ne hpk]
          exact hs
    · show Kv.get (h.db.apply _) [] = none
      rw [zset_writes, kvGet_apply_zset (onMember_zsetWrites _ _ _ _ _)]
      exact hc.noEmptyKey
  · rw [setTtl_long hkey]
    exact ⟨content, hc⟩

/-- So does `del_ttl`. -/
theorem delTtl (hc : h.Cached content) (key : Bytes) :
    ∃ content', (h.delTtl key).Cached content' := by
  rw [ExpirationHandler.delTtl]
  split
  · exact ⟨content, hc⟩
  · refine ⟨_, hc.list.del key, ?_, ?_⟩
    · intro p hp hne
      obtain ⟨hp, hpk⟩ := SortedSet.mem_del.mp hp
      rw [Function.update_of_ne hpk]
      exact hc.cached p hp hne
    · show Kv.get (h.db.apply _) [] = none
      rw [kvGet_apply_zset (onMember_zdel _ _ _ _)]
      exact hc.noEmptyKey

/-- So do several calls of it. -/
theorem foldl_delTtl (keys : List Bytes) : ∀ {h : ExpirationHandler} {content : Bytes → Option ℤ},
    h.Cached content → ∃ content', (keys.foldl ExpirationHandler.delTtl h).Cached content' := by
  induction keys with
  | nil => intro h content hc; exact ⟨content, hc⟩
  | cons key keys ih =>
      intro h content hc
      obtain ⟨content', hc'⟩ := hc.delTtl key
      exact ih hc'

/-- And so do writes of values. -/
theorem apply_kv (hc : h.Cached content) {ws : List Write} (hws : ∀ w ∈ ws, w.OnKeys Kv.IsKey)
    (hempty : Kv.get (h.db.apply ws) [] = none) :
    Cached { h with db := h.db.apply ws } content :=
  ⟨hc.list.apply_kv hws, hc.cached, hempty⟩

/-- What a turn works on comes from the list. -/
theorem turnKeys_cached (hc : h.Cached content) :
    ∀ p ∈ h.turnKeys.items, p.2 ≠ [] → ∃ s, content p.2 = some s ∧ (p.1 = s ∨ p.1 = rescale s) := by
  rw [turnKeys]
  split
  · rename_i hempty
    obtain ⟨members, -, hsound, -, hfrom, -⟩ := load_spec hc.list hempty
    intro p hp _
    obtain ⟨key, s, hmem, rfl⟩ := hfrom p hp
    exact ⟨s, hsound key s (List.mem_of_mem_take hmem), Or.inr rfl⟩
  · exact hc.cached

/-- The loop of the thread keeps the cache a part of the list. -/
theorem expireLoop (hc : h.Cached content) (now : Time) :
    ∃ content', (h.expireLoop now).Cached content' := by
  have hkeys := hc.turnKeys_cached
  rw [ExpirationHandler.expireLoop]
  cases hfront : h.turnKeys.front with
  | none => exact ⟨content, hc.list, hkeys, hc.noEmptyKey⟩
  | some p =>
      obtain ⟨score, key⟩ := p
      dsimp only
      split
      · refine ⟨_, (hc.list.apply_kv (Kv.onKeys_del key .sync)).del key, ?_, ?_⟩
        · intro p hp hne
          obtain ⟨hp, hpk⟩ := (SortedSet.mem_popFront hfront).mp hp
          rw [Function.update_of_ne hpk]
          exact hkeys p hp hne
        · show Kv.get (Db.apply _ _) [] = none
          rw [kvGet_apply_zset (onMember_zdel _ _ _ _)]
          exact kvGet_deletes (del_deletes key) hc.noEmptyKey
      · exact ⟨content, hc.list, hkeys, hc.noEmptyKey⟩

/-- Every step keeps the cache a part of the list, but for a flush with a cache that is not empty. -/
theorem step (hc : h.Cached content) {l : Step} (hl : l = .flushdb → h.fastKeys.items = []) :
    ∃ content', (h.step l).Cached content' := by
  cases l with
  | set key val =>
      exact ⟨content, hc.apply_kv (Kv.onKeys_set key val .sync)
        ((kvGet_set h.db key val).trans hc.noEmptyKey)⟩
  | setx key val ttl now =>
      apply setTtl _ key ttl now
      · exact content
      · exact hc.apply_kv (Kv.onKeys_set key val .sync)
          ((kvGet_set h.db key val).trans hc.noEmptyKey)
  | expire key ttl now =>
      rw [ExpirationHandler.step]
      split
      · exact hc.setTtl key ttl now
      · exact ⟨content, hc⟩
  | del key =>
      apply delTtl _ key
      · exact content
      · exact hc.apply_kv (Kv.onKeys_del key .sync) (kvGet_deletes (del_deletes key) hc.noEmptyKey)
  | multiSet kvs =>
      exact ⟨content, hc.apply_kv (Kv.onKeys_multiSet kvs .sync)
        ((kvGet_multiSet h.db kvs).trans hc.noEmptyKey)⟩
  | multiDel keys =>
      exact foldl_delTtl keys (hc.apply_kv (Kv.onKeys_multiDel keys .sync)
        (kvGet_deletes (multiDel_deletes keys) hc.noEmptyKey))
  | flushdb =>
      refine ⟨_, .empty, ?_, rfl⟩
      intro p hp
      change p ∈ h.fastKeys.items at hp
      rw [hl rfl] at hp
      cases hp
  | expireLoop now => exact hc.expireLoop now

end Cached

/-- A step that does not empty the database under a filled cache. -/
def FlushesCold (h : ExpirationHandler) (l : Step) : Prop := l = .flushdb → h.fastKeys.items = []

instance (h : ExpirationHandler) : DecidablePred h.FlushesCold
  | .flushdb => decidable_of_iff (h.fastKeys.items = []) ⟨fun hempty _ => hempty, fun hl => hl rfl⟩
  | .set .. => isTrue fun hl => by cases hl
  | .setx .. => isTrue fun hl => by cases hl
  | .expire .. => isTrue fun hl => by cases hl
  | .del .. => isTrue fun hl => by cases hl
  | .multiSet .. => isTrue fun hl => by cases hl
  | .multiDel .. => isTrue fun hl => by cases hl
  | .expireLoop .. => isTrue fun hl => by cases hl

/-- A time in the cache is over only if the one in the list is. -/
theorem le_of_rescale {s : ℤ} {now : Time} (h : rescale s ≤ now.val) : s ≤ now.val := by
  have hnow := now.property.1
  rw [rescale] at h
  split at h <;> omega

/-- **Expiry never deletes a live key.**  In every run from an empty database in which `flushdb` finds
the cache empty, a turn of the thread removes a value only if the TTL list then has an expiry time
for its key that is over. -/
theorem expire_deletes_only_expired (ls : List Step)
    (hls : Guarded step FlushesCold (new .empty) ls) (now : Time) (key : Bytes) :
    let h := ls.foldl step (new .empty)
    Kv.get h.db key ≠ none → Kv.get (h.expireLoop now).db key = none →
      ∃ t, ttlOf h.db key = some t ∧ t ≤ now.val := by
  intro h hbefore hafter
  obtain ⟨content, hc⟩ : ∃ content, h.Cached content := by
    refine hls.invariant (I := fun h => ∃ content, h.Cached content) ?_ ?_
    · rintro h l ⟨content, hc⟩ hl
      exact hc.step hl
    · refine ⟨_, ⟨.empty, ?_, rfl⟩⟩
      intro p hp
      cases hp
  rw [hc.list.ttlOf_eq]
  have hkeys := hc.turnKeys_cached
  rw [expireLoop] at hafter
  cases hfront : h.turnKeys.front with
  | none =>
      rw [hfront] at hafter
      exact absurd hafter hbefore
  | some p =>
      obtain ⟨score, key'⟩ := p
      rw [hfront] at hafter
      dsimp only at hafter
      split at hafter
      · rename_i hdue
        -- the only value that goes is that of the key at the front
        have hkey : key = key' := by
          by_contra hne
          apply hbefore
          rw [← hafter, kvGet_apply_zset (onMember_zdel _ _ _ _), Kv.get, Kv.get, Kv.del,
            Db.apply_delete, Db.apply_addLog, Db.apply_nil,
            OrderedMap.get_delete_of_ne _ fun heq => hne (encodeKvKey_inj heq)]
        subst hkey
        have hne : key ≠ [] := by
          rintro rfl
          exact hbefore hc.noEmptyKey
        obtain ⟨s, hs, hscore⟩ := hkeys _ (SortedSet.front_mem hfront) hne
        refine ⟨s, hs, ?_⟩
        rcases hscore with hscore | hscore
        · exact hscore.ge.trans hdue
        · exact le_of_rescale (hscore.ge.trans hdue)
      · exact absurd hafter hbefore

/-- A time in the year 2023. -/
def sampleTime : Time := ⟨1700000000000, by decide⟩

/-- A key with a ttl of one second. -/
theorem expire_deletes_only_expired_sample :
    let ls : List Step := [.setx (ascii "a") (ascii "1") ⟨1, by decide⟩ sampleTime,
      .expireLoop sampleTime]
    ∃ t, ttlOf (ls.foldl step (new .empty)).db (ascii "a") = some t ∧ t ≤ 1700000001000 := by
  intro ls
  exact expire_deletes_only_expired ls (by decide +kernel) ⟨1700000001000, by decide⟩ (ascii "a")
    (by decide +kernel) (by decide +kernel)

/-- **A key without a ttl is deleted.**  The cache keeps `a` over a `flushdb`, and a second after the
old ttl began the thread deletes the new value, which has none. -/
theorem live_key_deleted_after_flushdb :
    let h := [Step.setx (ascii "a") (ascii "1") ⟨1, by decide⟩ sampleTime, .expireLoop sampleTime,
      .flushdb, .set (ascii "a") (ascii "2")].foldl step (new .empty)
    Kv.get h.db (ascii "a") = some (ascii "2") ∧ ttlOf h.db (ascii "a") = none ∧
      Kv.get (h.expireLoop ⟨1700000001000, by decide⟩).db (ascii "a") = none := by
  decide +kernel
/-! ## No expiry is overlooked -/

/-- The cache holds the entries that expire first, with the times of the list, and the thread wakes
in time for all entries. -/
structure Watched (h : ExpirationHandler) (content : Bytes → Option ℤ) : Prop where
  list : IsTtlList h.db content
  agree : ∀ p ∈ h.fastKeys.items, ∀ s, content p.2 = some s → p.1 = s
  off : ∀ key s, content key = some s → (∀ p ∈ h.fastKeys.items, p.2 ≠ key) →
    ∀ p ∈ h.fastKeys.items, p.1 ≤ s
  first : ∀ key s, content key = some s → h.firstTimeout ≤ s
  /-- The scores are not taken for seconds. -/
  stable : ∀ key s, content key = some s → rescale s = s
  range : ∀ key s, content key = some s → -2 ^ 63 < s ∧ s < int64Max

/-- The content of the list after `set_ttl`. -/
def setContent (content : Bytes → Option ℤ) (key : Bytes) (expired : ℤ) : Bytes → Option ℤ :=
  if key = [] then content else Function.update content key (some expired)

/-- An expiration that is set keeps the others. -/
theorem setContent_of_ne (content : Bytes → Option ℤ) {key key' : Bytes} (expired : ℤ)
    (hne : key' ≠ key) : setContent content key expired key' = content key' := by
  rw [setContent]
  split
  · rfl
  · exact Function.update_of_ne hne _ _

/-- An expiration that is set is the one given. -/
theorem setContent_self {content : Bytes → Option ℤ} (hnil : content [] = none) {key : Bytes}
    {expired s : ℤ} (hs : setContent content key expired key = some s) : s = expired := by
  rw [setContent] at hs
  split at hs
  · rename_i hkey
    rw [hkey, hnil] at hs
    cases hs
  · rw [Function.update_self] at hs
    exact (Option.some.inj hs).symm

namespace Watched

variable {content : Bytes → Option ℤ}

/-- The cache that `set_ttl` leaves holds the times of the list. -/
theorem cacheTtl_agree (hw : h.Watched content) (key : Bytes) (expired : ℤ) :
    ∀ p ∈ (cacheTtl h.fastKeys key expired).items, ∀ s,
      setContent content key expired p.2 = some s → p.1 = s := by
  intro p hp s hs
  rcases of_mem_cacheTtl hp with rfl | ⟨hp, hpk⟩
  · exact (setContent_self hw.list.nonempty hs).symm
  · rw [setContent_of_ne content expired hpk] at hs
    exact hw.agree p hp s hs

/-- The cache that `set_ttl` leaves still holds the entries that expire first. -/
theorem cacheTtl_off (hw : h.Watched content) (key : Bytes) (expired : ℤ) {key' : Bytes} {s : ℤ}
    (hs : setContent content key expired key' = some s)
    (hoff : ∀ p ∈ (cacheTtl h.fastKeys key expired).items, p.2 ≠ key') :
    ∀ p ∈ (cacheTtl h.fastKeys key expired).items, p.1 ≤ s := by
  have hagree := hw.cacheTtl_agree key expired
  -- for a key that was off the cache before, its largest time is a bound
  have hmax : key' ≠ key → (∀ p ∈ h.fastKeys.items, p.2 ≠ key') → h.fastKeys.items ≠ [] →
      h.fastKeys.maxScore ≤ s := by
    intro hne hbefore hitems
    rw [setContent_of_ne content expired hne] at hs
    obtain ⟨q, hq, hqmax⟩ := SortedSet.maxScore_mem hitems
    rw [← hqmax]
    exact hw.off key' s hs hbefore q hq
  by_cases hcond : h.fastKeys.items ≠ [] ∧ expired ≤ h.fastKeys.maxScore
  · have hle : ∀ p ∈ (h.fastKeys.add key expired).items, p.1 ≤ h.fastKeys.maxScore := by
      intro p hp
      rcases SortedSet.mem_add.mp hp with rfl | ⟨hp, -⟩
      · exact hcond.2
      · exact SortedSet.le_maxScore hp
    -- for a key that is not even in the cache before it is cut
    have hbound : (∀ p ∈ (h.fastKeys.add key expired).items, p.2 ≠ key') →
        h.fastKeys.maxScore ≤ s := by
      intro hnot
      have hne : key' ≠ key := fun heq =>
        hnot (expired, key) (SortedSet.mem_add.mpr (Or.inl rfl)) heq.symm
      refine hmax hne ?_ hcond.1
      intro p hp hpk
      apply hnot p (SortedSet.mem_add.mpr (Or.inr ⟨hp, ?_⟩)) hpk
      rw [hpk]
      exact hne
    simp only [cacheTtl, if_pos hcond] at hagree hoff ⊢
    by_cases hcut : batchSize < (h.fastKeys.add key expired).size
    · simp only [if_pos hcut] at hagree hoff ⊢
      have hitems : (h.fastKeys.add key expired).items ≠ [] := by
        intro hnil
        rw [SortedSet.size, hnil] at hcut
        exact absurd hcut (by decide)
      obtain ⟨b, hbmem, hb⟩ := SortedSet.back_of_ne_nil hitems
      intro p hp
      have hpmem := ((SortedSet.mem_popBack hb).mp hp).1
      rcases eq_or_ne b.2 key' with hkey | hkey
      · -- the key that was cut off had the largest time
        have hbs : b.1 = s := by
          rcases SortedSet.mem_add.mp hbmem with hnew | ⟨hold, hne⟩
          · rw [hnew] at hkey ⊢
            rw [← hkey] at hs
            exact (setContent_self hw.list.nonempty hs).symm
          · rw [← hkey, setContent_of_ne content expired hne] at hs
            exact hw.agree b hold s hs
        rw [← hbs]
        exact SortedSet.le_back hb hpmem
      · refine (hle p hpmem).trans (hbound ?_)
        intro q hq hqk
        apply hoff q ((SortedSet.mem_popBack hb).mpr ⟨hq, ?_⟩) hqk
        rw [hqk]
        exact hkey.symm
    · simp only [if_neg hcut] at hoff ⊢
      exact fun p hp => (hle p hp).trans (hbound hoff)
  · simp only [cacheTtl, if_neg hcond] at hoff ⊢
    intro p hp
    obtain ⟨hp, hpk⟩ := SortedSet.mem_del.mp hp
    have hitems : h.fastKeys.items ≠ [] := List.ne_nil_of_mem hp
    have hlt : h.fastKeys.maxScore < expired := not_le.mp fun hle => hcond ⟨hitems, hle⟩
    have hpmax := SortedSet.le_maxScore hp
    rcases eq_or_ne key' key with rfl | hne
    · rw [setContent_self hw.list.nonempty hs]
      exact hpmax.trans hlt.le
    · refine hpmax.trans (hmax hne ?_ hitems)
      intro q hq hqk
      apply hoff q (SortedSet.mem_del.mpr ⟨hq, ?_⟩) hqk
      rw [hqk]
      exact hne

/-- `set_ttl` keeps the list watched, for a time that is not rescaled. -/
theorem setTtl (hw : h.Watched content) (key : Bytes) {ttl : TtlSeconds} {now : Time}
    (hstable : rescale (expiry now ttl) = expiry now ttl) :
    ∃ content', (h.setTtl key ttl now).Watched content' := by
  by_cases hkey : IsShort key
  · rw [setTtl_short hkey]
    have hlist := hw.list.set hkey (isInt64_expiry now ttl)
    refine ⟨setContent content key (expiry now ttl), hlist, hw.cacheTtl_agree key _,
      fun key' s => hw.cacheTtl_off key _, ?_, ?_, ?_⟩
    · intro key' s hs
      show (if expiry now ttl < h.firstTimeout then expiry now ttl else h.firstTimeout) ≤ s
      rcases eq_or_ne key' key with rfl | hne
      · rw [setContent_self hw.list.nonempty hs]
        split <;> omega
      · rw [setContent_of_ne content _ hne] at hs
        have := hw.first key' s hs
        split <;> omega
    · intro key' s hs
      rcases eq_or_ne key' key with rfl | hne
      · rw [setContent_self hw.list.nonempty hs]
        exact hstable
      · rw [setContent_of_ne content _ hne] at hs
        exact hw.stable key' s hs
    · intro key' s hs
      rcases eq_or_ne key' key with rfl | hne
      · rw [setContent_self hw.list.nonempty hs]
        have hnow := now.property
        have httl := ttl.property
        simp only [expiry, int64Max]
        omega
      · rw [setContent_of_ne content _ hne] at hs
        exact hw.range key' s hs
  · rw [setTtl_long hkey]
    exact ⟨content, hw⟩

/-- A key that leaves the list and the cache. -/
theorem remove (hw : h.Watched content) (key : Bytes) {db : Db} {fastKeys : SortedSet Bytes}
    (hlist : IsTtlList db (Function.update content key none))
    (hmem : ∀ p, p ∈ fastKeys.items ↔ p ∈ h.fastKeys.items ∧ p.2 ≠ key) :
    Watched { h with db := db, fastKeys := fastKeys } (Function.update content key none) := by
  have hcontent : ∀ {key' : Bytes} {s : ℤ}, Function.update content key none key' = some s →
      key' ≠ key ∧ content key' = some s := by
    intro key' s hs
    rcases eq_or_ne key' key with rfl | hne
    · rw [Function.update_self] at hs
      cases hs
    · rw [Function.update_of_ne hne] at hs
      exact ⟨hne, hs⟩
  refine ⟨hlist, ?_, ?_, ?_, ?_, ?_⟩
  · intro p hp s hs
    exact hw.agree p ((hmem p).mp hp).1 s (hcontent hs).2
  · intro key' s hs hoff p hp
    obtain ⟨hne, hs⟩ := hcontent hs
    refine hw.off key' s hs ?_ p ((hmem p).mp hp).1
    intro q hq hqk
    apply hoff q ((hmem q).mpr ⟨hq, ?_⟩) hqk
    rw [hqk]
    exact hne
  · exact fun key' s hs => hw.first key' s (hcontent hs).2
  · exact fun key' s hs => hw.stable key' s (hcontent hs).2
  · exact fun key' s hs => hw.range key' s (hcontent hs).2

/-- So does `del_ttl`. -/
theorem delTtl (hw : h.Watched content) (key : Bytes) :
    ∃ content', (h.delTtl key).Watched content' := by
  rw [ExpirationHandler.delTtl]
  split
  · exact ⟨content, hw⟩
  · exact ⟨_, hw.remove key (hw.list.del key) fun p => SortedSet.mem_del⟩

/-- So do several calls of it. -/
theorem foldl_delTtl (keys : List Bytes) : ∀ {h : ExpirationHandler} {content : Bytes → Option ℤ},
    h.Watched content → ∃ content', (keys.foldl ExpirationHandler.delTtl h).Watched content' := by
  induction keys with
  | nil => intro h content hw; exact ⟨content, hw⟩
  | cons key keys ih =>
      intro h content hw
      obtain ⟨content', hw'⟩ := hw.delTtl key
      exact ih hw'

/-- And so do writes of values. -/
theorem apply_kv (hw : h.Watched content) {ws : List Write} (hws : ∀ w ∈ ws, w.OnKeys Kv.IsKey) :
    Watched { h with db := h.db.apply ws } content :=
  ⟨hw.list.apply_kv hws, hw.agree, hw.off, hw.first, hw.stable, hw.range⟩

/-- The front of the cache is the first to expire of all. -/
theorem front_le (hw : h.Watched content) {p : ℤ × Bytes} (hp : h.fastKeys.front = some p)
    {key : Bytes} {s : ℤ} (hs : content key = some s) : p.1 ≤ s := by
  by_cases hin : ∃ q ∈ h.fastKeys.items, q.2 = key
  · obtain ⟨q, hq, rfl⟩ := hin
    rw [← hw.agree q hq s hs]
    exact SortedSet.front_le hp hq
  · exact hw.off key s hs (fun q hq hqk => hin ⟨q, hq, hqk⟩) p (SortedSet.front_mem hp)

/-- Loading the cache. -/
theorem turnKeys (hw : h.Watched content) :
    Watched { h with fastKeys := h.turnKeys } content ∧
      (h.turnKeys.items = [] → ∀ key, content key = none) := by
  rw [ExpirationHandler.turnKeys]
  split
  · rename_i hempty
    obtain ⟨members, hsorted, hsound, hcomplete, hfrom, hto⟩ := load_spec hw.list hempty
    have hmem : ∀ {key : Bytes} {s : ℤ}, content key = some s → (key, s) ∈ members := fun hs =>
      hcomplete _ _ hs (hw.range _ _ hs).1 (hw.range _ _ hs).2
    refine ⟨⟨hw.list, ?_, ?_, hw.first, hw.stable, hw.range⟩, ?_⟩
    · intro p hp s hs
      obtain ⟨key, t, htaken, rfl⟩ := hfrom p hp
      have ht := hsound key t (List.mem_of_mem_take htaken)
      rw [ht] at hs
      rw [← Option.some.inj hs]
      exact hw.stable key t ht
    · intro key s hs hoff p hp
      obtain ⟨key', t, htaken, rfl⟩ := hfrom p hp
      have ht := hsound key' t (List.mem_of_mem_take htaken)
      show rescale t ≤ s
      rw [hw.stable key' t ht]
      -- the entry that was not loaded stands behind those that were
      have hsplit := List.take_append_drop batchSize members
      have hdropped : (key, s) ∈ members.drop batchSize := by
        have hin := hmem hs
        rw [← hsplit] at hin
        rcases List.mem_append.mp hin with hin | hin
        · obtain ⟨q, hq, hqk⟩ := hto key s hin
          exact absurd hqk (hoff q hq)
        · exact hin
      rw [← hsplit, List.pairwise_append] at hsorted
      exact hsorted.2.2 _ htaken _ hdropped
    · intro hnone key
      cases hs : content key with
      | none => rfl
      | some s =>
          have hin := hmem hs
          have htake : members.take batchSize ≠ [] := by
            rw [Ne, List.take_eq_nil_iff]
            rintro (hzero | hnil)
            · exact absurd hzero (by decide)
            · rw [hnil] at hin
              cases hin
          obtain ⟨q, hq⟩ := List.exists_mem_of_ne_nil _ htake
          obtain ⟨p, hp, -⟩ := hto q.1 q.2 hq
          rw [hnone] at hp
          cases hp
  · rename_i hne
    exact ⟨hw, fun hnil => absurd hnil hne⟩

/-- The loop of the thread keeps the list watched. -/
theorem expireLoop (hw : h.Watched content) (now : Time) :
    ∃ content', (h.expireLoop now).Watched content' := by
  obtain ⟨hkeys, hall⟩ := hw.turnKeys
  rw [ExpirationHandler.expireLoop]
  cases hfront : h.turnKeys.front with
  | none =>
      have hnone := hall (SortedSet.front_eq_none hfront)
      refine ⟨content, ⟨hw.list, hkeys.agree, hkeys.off, ?_, hw.stable, hw.range⟩⟩
      intro key s hs
      rw [hnone key] at hs
      cases hs
  | some p =>
      obtain ⟨score, key⟩ := p
      have hturn : Watched { h with fastKeys := h.turnKeys, firstTimeout := score } content :=
        ⟨hw.list, hkeys.agree, hkeys.off, fun key' s hs => hkeys.front_le hfront hs, hw.stable,
          hw.range⟩
      dsimp only
      split
      · refine ⟨_, hturn.remove key ?_ fun p => SortedSet.mem_popFront hfront⟩
        exact (hw.list.apply_kv (Kv.onKeys_del key .sync)).del key
      · exact ⟨content, hturn⟩

/-- Every step does, if its time is not rescaled. -/
theorem step (hw : h.Watched content) {l : Step}
    (hl : ∀ key val ttl now, l = .setx key val ttl now ∨ l = .expire key ttl now →
      rescale (expiry now ttl) = expiry now ttl) : ∃ content', (h.step l).Watched content' := by
  cases l with
  | set key val => exact ⟨content, hw.apply_kv (Kv.onKeys_set key val .sync)⟩
  | setx key val ttl now =>
      exact (hw.apply_kv (Kv.onKeys_set key val .sync)).setTtl key (hl key val ttl now (Or.inl rfl))
  | expire key ttl now =>
      rw [ExpirationHandler.step]
      split
      · exact hw.setTtl key (hl key [] ttl now (Or.inr rfl))
      · exact ⟨content, hw⟩
  | del key => exact (hw.apply_kv (Kv.onKeys_del key .sync)).delTtl key
  | multiSet kvs => exact ⟨content, hw.apply_kv (Kv.onKeys_multiSet kvs .sync)⟩
  | multiDel keys => exact foldl_delTtl keys (hw.apply_kv (Kv.onKeys_multiDel keys .sync))
  | flushdb =>
      refine ⟨_, ⟨.empty, ?_, ?_, ?_, ?_, ?_⟩⟩
      · intro p _ s hs; cases hs
      · intro key s hs; cases hs
      · intro key s hs; cases hs
      · intro key s hs; cases hs
      · intro key s hs; cases hs
  | expireLoop now => exact hw.expireLoop now

end Watched

/-- A step whose expiry time, if it sets one, is not taken for seconds. -/
def InMilliseconds : Step → Prop
  | .setx _ _ ttl now => rescale (expiry now ttl) = expiry now ttl
  | .expire _ ttl now => rescale (expiry now ttl) = expiry now ttl
  | _ => True

instance : DecidablePred InMilliseconds
  | .setx .. => inferInstanceAs (Decidable (_ = _))
  | .expire .. => inferInstanceAs (Decidable (_ = _))
  | .set .. => inferInstanceAs (Decidable True)
  | .del .. => inferInstanceAs (Decidable True)
  | .multiSet .. => inferInstanceAs (Decidable True)
  | .multiDel .. => inferInstanceAs (Decidable True)
  | .flushdb => inferInstanceAs (Decidable True)
  | .expireLoop .. => inferInstanceAs (Decidable True)

/-- **No expiry is overlooked.**  In every run whose expiry times are not taken for seconds: an entry
of the TTL list that is not in the cache expires no earlier than every entry in the cache; the
thread wakes no later than any entry expires; so when an entry is due the thread does not sleep, and
the front of the cache is the first to expire. -/
theorem no_expiry_overlooked (ls : List Step) (hls : ∀ l ∈ ls, InMilliseconds l) :
    let h := ls.foldl step (new .empty)
    (∀ key t, ttlOf h.db key = some t → (∀ p ∈ h.fastKeys.items, p.2 ≠ key) →
        ∀ p ∈ h.fastKeys.items, p.1 ≤ t) ∧
      (∀ p ∈ h.fastKeys.items, ∀ t, ttlOf h.db p.2 = some t → p.1 = t) ∧
      (∀ key t, ttlOf h.db key = some t → h.firstTimeout ≤ t) ∧
      ∀ now key t, ttlOf h.db key = some t → t ≤ now.val →
        ¬ h.Sleeping now ∧ ∀ p, h.fastKeys.front = some p →
          ∀ key' t', ttlOf h.db key' = some t' → p.1 ≤ t' := by
  intro h
  obtain ⟨content, hw⟩ : ∃ content, h.Watched content := by
    show ∃ content, (ls.foldl step (new .empty)).Watched content
    apply List.foldlRecOn (motive := fun h : ExpirationHandler => ∃ content, h.Watched content) ls
    · refine ⟨_, ⟨.empty, ?_, ?_, ?_, ?_, ?_⟩⟩
      · intro p hp; cases hp
      · intro key s hs; cases hs
      · intro key s hs; cases hs
      · intro key s hs; cases hs
      · intro key s hs; cases hs
    · rintro h ⟨content, hw⟩ l hl
      apply hw.step
      intro key val ttl now heq
      have hms := hls l hl
      rcases heq with rfl | rfl
      · exact hms
      · exact hms
  simp only [hw.list.ttlOf_eq]
  refine ⟨hw.off, hw.agree, hw.first, ?_⟩
  intro now key t ht hdue
  refine ⟨not_lt.mpr ((hw.first key t ht).trans hdue), ?_⟩
  exact fun p hp key' t' ht' => hw.front_le hp ht'

/-- Two keys, the second of which expires first. -/
theorem no_expiry_overlooked_sample :
    let h := [Step.setx (ascii "a") (ascii "1") ⟨10, by decide⟩ sampleTime,
      .setx (ascii "b") (ascii "2") ⟨5, by decide⟩ sampleTime, .expireLoop sampleTime].foldl step
        (new .empty)
    ttlOf h.db (ascii "b") = some 1700000005000 ∧ h.firstTimeout ≤ 1700000005000 := by
  intro h
  have hb : ttlOf h.db (ascii "b") = some 1700000005000 := by decide +kernel
  exact ⟨hb, (no_expiry_overlooked _ (by decide)).2.2.1 _ _ hb⟩

/-- **An expiry is overlooked.**  Negative ttls give expiry times in January 1970, 1985 and 1989.  The
first is taken for seconds when the cache is loaded; after a turn of the thread it is the earliest in
the list, but neither the front of the cache nor the time the thread waits for. -/
theorem small_expiry_overlooked :
    let h := [Step.setx (ascii "a") (ascii "1") ⟨-1699000000, by decide⟩ sampleTime,
      .setx (ascii "b") (ascii "2") ⟨-1200000000, by decide⟩ sampleTime,
      .setx (ascii "c") (ascii "3") ⟨-1100000000, by decide⟩ sampleTime,
      .expireLoop sampleTime].foldl step (new .empty)
    ttlOf h.db (ascii "a") = some 1000000000 ∧ ttlOf h.db (ascii "c") = some 600000000000 ∧
      h.firstTimeout = 500000000000 ∧ h.fastKeys.front = some (600000000000, ascii "c") := by
  decide +kernel

end ExpirationHandler

end Ssdb
