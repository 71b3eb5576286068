/-
# Sorted sets

`ssdb-master/src/ssdb/t_zset.h`, `t_zset.cpp` and `proc_zset.cpp`.  A member of a sorted set is kept
twice: under its name and key with the score as text (`ZSET`), and under name, score and key with
no value (`ZSCORE`), where range queries find it.  A third record counts the members (`ZSIZE`).

The three views agree in every state that the commands reach (`zset_views_agree`): `Db.IsZset` says
that the records of a name are those of a finite map from keys to scores.

Scores are `int64_t`; sizes are counters, which the model keeps as integers without bounds.
-/
import DoudizhuBackend.Ssdb.Iterator

namespace Ssdb

/-! ## Operations

Each returns its result and the calls of the transaction that it commits. -/

/-- `zget`. -/
def zget (db : Db) (name key : Bytes) : Option Bytes :=
  (db.get (encodeZsetKey name key)).map Value.image

/-- `zsize`, `0` without a record. -/
def zsize (db : Db) (name : Bytes) : ℤ :=
  match db.get (encodeZsizeKey name) with
  | none => 0
  | some v =>
      match v.int64 with
      | none => 0
      | some n => if n < 0 then 0 else n

/-- `incr_zsize`. -/
def incrZsize (db : Db) (name : Bytes) (incr : ℤ) : List Write :=
  let size := zsize db name + incr
  if size = 0 then [.delete (encodeZsizeKey name)] else [.put (encodeZsizeKey name) (.int size)]

/-- `filter_score`: the decimal text of a score. -/
def filterScore (score : Bytes) : Bytes := str (strtoll score)

/-- `zset_one`: the number of new members. -/
def zsetOne (db : Db) (name key score : Bytes) (logType : BinlogType) : ℤ × List Write :=
  if name = [] ∨ key = [] then (0, [])
  else if keyLenMax < name.length ∨ keyLenMax < key.length then (-1, [])
  else
    let newScore := filterScore score
    let put : List Write :=
      [.put (encodeZscoreKey name key newScore) (.bytes []),
        .put (encodeZsetKey name key) (.bytes newScore),
        .addLog logType .zset (encodeZsetKey name key)]
    match zget db name key with
    | none => (1, put)
    | some oldScore =>
        if oldScore = newScore then (0, [])
        else (0, .delete (encodeZscoreKey name key oldScore) :: put)

/-- `zdel_one`: the number of removed members. -/
def zdelOne (db : Db) (name key : Bytes) (logType : BinlogType) : ℤ × List Write :=
  if keyLenMax < name.length ∨ keyLenMax < key.length then (-1, [])
  else
    match zget db name key with
    | none => (0, [])
    | some oldScore =>
        (1, [.delete (encodeZscoreKey name key oldScore), .delete (encodeZsetKey name key),
          .addLog logType .zdel (encodeZsetKey name key)])

/-- `zset`. -/
def zset (db : Db) (name key score : Bytes) (logType : BinlogType) : ℤ × List Write :=
  let (ret, ws) := zsetOne db name key score logType
  if ret < 0 then (ret, []) else (ret, if 0 < ret then ws ++ incrZsize db name ret else ws)

/-- `zdel`. -/
def zdel (db : Db) (name key : Bytes) (logType : BinlogType) : ℤ × List Write :=
  let (ret, ws) := zdelOne db name key logType
  if ret < 0 then (ret, []) else (ret, if 0 < ret then ws ++ incrZsize db name (-ret) else ws)

/-- The new score of `zincr`. -/
def zincrScore (db : Db) (name key : Bytes) (by_ : ℤ) : ℤ :=
  match zget db name key with
  | none => addInt64 0 by_
  | some old => addInt64 (strtoll old) by_

/-- `zincr`. -/
def zincr (db : Db) (name key : Bytes) (by_ : ℤ) (logType : BinlogType) : ℤ × ℤ × List Write :=
  let newVal := zincrScore db name key by_
  let (ret, ws) := zsetOne db name key (str newVal) logType
  if ret = -1 then (-1, newVal, [])
  else (1, newVal, if 0 < ret then ws ++ incrZsize db name ret else ws)

/-! ## Range queries -/

/-- `SSDB_SCORE_MIN`. -/
def scoreMin : Bytes := ascii "-9223372036854775808"

/-- `SSDB_SCORE_MAX`. -/
def scoreMax : Bytes := ascii "+9223372036854775807"

/-- The key `"\xff"`. -/
def keyLast : Bytes := [255]

/-- `ziterator` forward. -/
def ziterator (db : Db) (name keyStart scoreStart scoreEnd : Bytes) (limit : ℕ) :
    List (Bytes × Bytes) :=
  let first := encodeZscoreKey name keyStart (if scoreStart = [] then scoreMin else scoreStart)
  let last := encodeZscoreKey name keyLast (if scoreEnd = [] then scoreMax else scoreEnd)
  zIterator (iterator db first last limit)

/-- `ziterator` backward. -/
def zrevIterator (db : Db) (name keyStart scoreStart scoreEnd : Bytes) (limit : ℕ) :
    List (Bytes × Bytes) :=
  let first :=
    if scoreStart = [] then encodeZscoreKey name keyStart scoreMax
    else encodeZscoreKey name (if keyStart = [] then keyLast else keyStart) scoreStart
  let last := encodeZscoreKey name [] (if scoreEnd = [] then scoreMin else scoreEnd)
  zIterator (revIterator db first last limit)

/-- The score that `zscan` and `zrscan` start from: that of the key when only the key is given. -/
def scanScore (db : Db) (name key scoreStart : Bytes) : Bytes :=
  if key ≠ [] ∧ scoreStart = [] then (zget db name key).getD [] else scoreStart

/-- `zscan`. -/
def zscan (db : Db) (name key scoreStart scoreEnd : Bytes) (limit : ℕ) : List (Bytes × Bytes) :=
  ziterator db name key (scanScore db name key scoreStart) scoreEnd limit

/-- `zrscan`. -/
def zrscan (db : Db) (name key scoreStart scoreEnd : Bytes) (limit : ℕ) : List (Bytes × Bytes) :=
  zrevIterator db name key (scanScore db name key scoreStart) scoreEnd limit

/-- `offset + limit` in `uint64_t`, where it does not wrap. -/
def rangeLimit (offset limit : ℕ) : ℕ :=
  if limit < (offset + limit) % 2 ^ 64 then (offset + limit) % 2 ^ 64 else limit

/-- `zrange`: the first `offset` members are skipped. -/
def zrange (db : Db) (name : Bytes) (offset limit : ℕ) : List (Bytes × Bytes) :=
  (ziterator db name [] [] [] (rangeLimit offset limit)).drop offset

/-! ## Commands -/

/-- `proc_multi_zset`: up to the first that fails. -/
def procMultiZset (name : Bytes) : ℤ → List (Bytes × Bytes) → Db → Db × List Bytes
  | num, [], db => (db, replyInt 0 num)
  | num, (key, score) :: members, db =>
      let (ret, ws) := zset db name key score .sync
      if ret = -1 then (db.apply ws, [ascii "error"])
      else procMultiZset name (num + ret) members (db.apply ws)

/-- Removals up to the first that fails: the number of keys removed, and whether one failed. -/
def zdelLoop (name : Bytes) : List Bytes → Db → Db × ℤ × Bool
  | [], db => (db, 0, false)
  | key :: keys, db =>
      let (ret, ws) := zdel db name key .sync
      if ret = -1 then (db.apply ws, 0, true)
      else
        let (db', num, failed) := zdelLoop name keys (db.apply ws)
        (db', ret + num, failed)

/-- `proc_multi_zdel`. -/
def procMultiZdel (name : Bytes) (keys : List Bytes) (db : Db) : Db × List Bytes :=
  let (db', num, failed) := zdelLoop name keys db
  (db', if failed then [ascii "error"] else replyInt 0 num)

/-- The loop of `proc_zremrangebyscore` and `proc_zremrangebyrank`. -/
def zremLoop (name : Bytes) (members : List (Bytes × Bytes)) (db : Db) : Db × List Bytes :=
  let (db', _, failed) := zdelLoop name (members.map (·.1)) db
  (db', if failed then [ascii "error"] else replyInt 0 members.length)

/-- The limit -1 as `uint64_t`. -/
def noLimit : ℕ := 2 ^ 64 - 1

/-- `proc_zremrangebyscore`: the members are listed first, and then deleted. -/
def procZremrangebyscore (name first last : Bytes) (db : Db) : Db × List Bytes :=
  zremLoop name (zscan db name [] first last noLimit) db

/-- `proc_zremrangebyrank`; the number of members is a `uint64_t`. -/
def procZremrangebyrank (name : Bytes) (first last : ℕ) (db : Db) : Db × List Bytes :=
  zremLoop name (zrange db name first ((last + 2 ^ 64 - first + 1) % 2 ^ 64)) db

/-- `zpop`: the members that were removed. -/
def zpop (name : Bytes) : List (Bytes × Bytes) → Db → Db × List Bytes
  | [], db => (db, [])
  | (key, score) :: members, db =>
      let (ret, ws) := zdel db name key .sync
      let (db', reply) := zpop name members (db.apply ws)
      (db', if ret = 1 then key :: score :: reply else reply)

/-- The rounds of `proc_zclear`: up to 1000 members behind the last one removed, until there are
none.  Every round removes at least one of the records of the database. -/
def zclearRounds (name : Bytes) : ℕ → Bytes → Bytes → ℤ → Db → Db × List Bytes
  | 0, _, _, _, db => (db, [])
  | fuel + 1, keyStart, scoreStart, count, db =>
      let members := zscan db name keyStart scoreStart [] 1000
      match members.getLast? with
      | none => (db, replyInt 0 count)
      | some (key, score) =>
          let (db', _, failed) := zdelLoop name (members.map (·.1)) db
          if failed then (db', [ascii "error"])
          else zclearRounds name fuel key score (count + members.length) db'

/-- `proc_zclear`: deletes in rounds, until one finds nothing. -/
def procZclear (name : Bytes) (db : Db) : Db × List Bytes :=
  zclearRounds name (db.entries.length + 1) [] [] 0 db

/-- The commands that write sorted sets; numbers are those read from the request. -/
inductive ZsetCommand where
  | zset (name key score : Bytes)
  | zdel (name key : Bytes)
  | zincr (name key : Bytes) (by_ : ℤ)
  | multiZset (name : Bytes) (members : List (Bytes × Bytes))
  | multiZdel (name : Bytes) (keys : List Bytes)
  | zclear (name : Bytes)
  | zpopFront (name : Bytes) (limit : ℕ)
  | zpopBack (name : Bytes) (limit : ℕ)
  | zremrangebyscore (name first last : Bytes)
  | zremrangebyrank (name : Bytes) (first last : ℕ)

namespace ZsetCommand

/-- The database and the reply after a command. -/
def run (db : Db) : ZsetCommand → Db × List Bytes
  | zset name key score =>
      let (ret, ws) := Ssdb.zset db name key score .sync
      (db.apply ws, replyInt ret ret)
  | zdel name key =>
      let (ret, ws) := Ssdb.zdel db name key .sync
      (db.apply ws, replyBool ret)
  | zincr name key by_ =>
      let (ret, newVal, ws) := Ssdb.zincr db name key by_ .sync
      (db.apply ws, replyInt ret newVal)
  | multiZset name members => procMultiZset name 0 members db
  | multiZdel name keys => procMultiZdel name keys db
  | zclear name => procZclear name db
  | zpopFront name limit =>
      let (db', reply) := zpop name (zscan db name [] [] [] limit) db
      (db', ascii "ok" :: reply)
  | zpopBack name limit =>
      let (db', reply) := zpop name (zrscan db name [] [] [] limit) db
      (db', ascii "ok" :: reply)
  | zremrangebyscore name first last => procZremrangebyscore name first last db
  | zremrangebyrank name first last => procZremrangebyrank name first last db

/-- The store after a command. -/
def exec (db : Db) (c : ZsetCommand) : Db := (c.run db).1

end ZsetCommand

/-! ## Keys of the records -/

/-- The key of a member tells its name and key, also when the other name or key is long: the length
bytes then leave too little for them. -/
theorem encodeZsetKey_inj {name name' key key' : Bytes} (hname : name.length ≤ 255)
    (hkey : key.length ≤ 255) (h : encodeZsetKey name key = encodeZsetKey name' key') :
    name = name' ∧ key = key' := by
  have hlength := congrArg List.length h
  simp only [encodeZsetKey, List.length_cons, List.length_append] at hlength
  simp only [encodeZsetKey, List.cons.injEq, true_and, lenByte_eq_iff] at h
  have hsame : name.length = name'.length := by omega
  obtain ⟨rfl, hrest⟩ := List.append_inj h.2 hsame
  exact ⟨rfl, (List.cons.inj hrest).2⟩

/-- A score takes nine bytes: its sign and eight more. -/
@[simp]
theorem length_encodeScore (s : ℤ) : (encodeScore s).length = 9 := by
  simp [encodeScore]

/-- Two scores do not share their bytes. -/
theorem encodeScore_inj {s s' : ℤ} (hs : IsInt64 s) (hs' : IsInt64 s')
    (h : encodeScore s = encodeScore s') : s = s' := by
  have hmod := bigEndian_inj (emod_toNat_lt s) (emod_toNat_lt s') (List.cons.inj h).2
  rw [← bmod_emod hs, hmod, bmod_emod hs']

/-- The key of a member by score holds name, member and score. -/
theorem encodeZscoreKey_inj {name name' key key' score score' : Bytes} (hname : name.length ≤ 255)
    (hkey : key.length ≤ 255)
    (h : encodeZscoreKey name key score = encodeZscoreKey name' key' score') :
    name = name' ∧ key = key' ∧ strtoll score = strtoll score' := by
  have hlength := congrArg List.length h
  simp only [encodeZscoreKey, List.length_cons, List.length_append, length_encodeScore] at hlength
  simp only [encodeZscoreKey, List.cons.injEq, true_and, lenByte_eq_iff, List.append_assoc] at h
  have hsame : name.length = name'.length := by omega
  obtain ⟨rfl, hrest⟩ := List.append_inj h.2 hsame
  obtain ⟨hscore, hrest⟩ := List.append_inj hrest (by simp)
  exact ⟨rfl, (List.cons.inj hrest).2,
    encodeScore_inj (isInt64_strtoll score) (isInt64_strtoll score') hscore⟩

/-- The three kinds of records have keys apart, since their first bytes differ. -/
theorem zsetKey_ne_zscoreKey (name key name' key' score' : Bytes) :
    encodeZsetKey name key ≠ encodeZscoreKey name' key' score' := by
  intro h
  have := (List.cons.inj h).1
  revert this
  decide

theorem zsetKey_ne_zsizeKey (name key name' : Bytes) :
    encodeZsetKey name key ≠ encodeZsizeKey name' := by
  intro h
  have := (List.cons.inj h).1
  revert this
  decide

theorem zscoreKey_ne_zsizeKey (name key score name' : Bytes) :
    encodeZscoreKey name key score ≠ encodeZsizeKey name' := by
  intro h
  have := (List.cons.inj h).1
  revert this
  decide

/-! ## The records of a finite map -/

/-- **The records of the sorted set `name` are those of a finite map** from keys to scores: the three
views, and no size record for the empty map. -/
structure Db.IsZset (db : Db) (name : Bytes) (content : Bytes → Option ℤ) (keys : List Bytes) :
    Prop where
  member : ∀ key, db.get (encodeZsetKey name key) = (content key).map fun s => .bytes (str s)
  score : ∀ key s, IsInt64 s → db.get (encodeZscoreKey name key (str s)) =
    if content key = some s then some (.bytes []) else none
  size : db.get (encodeZsizeKey name) = if keys = [] then none else some (.int keys.length)
  nodup : keys.Nodup
  mem_keys : ∀ key, key ∈ keys ↔ (content key).isSome
  isInt64 : ∀ key s, content key = some s → IsInt64 s

section Records

variable (db : Db) {name key : Bytes} (v : Value)

/-- A score that is put is read back, and the other members keep theirs. -/
theorem get_put_zset (hname : IsShort name) (hkey : IsShort key) (key' : Bytes) :
    (db.put (encodeZsetKey name key) v).get (encodeZsetKey name key') =
      if key' = key then some v else db.get (encodeZsetKey name key') := by
  have hiff : encodeZsetKey name key' = encodeZsetKey name key ↔ key' = key := by
    constructor
    · exact fun h => (encodeZsetKey_inj hname hkey h.symm).2.symm
    · exact fun h => by rw [h]
  simp only [OrderedMap.get_put, hiff]

/-- A score that is deleted is gone, and the other members keep theirs. -/
theorem get_delete_zset (hname : IsShort name) (hkey : IsShort key) (key' : Bytes) :
    (db.delete (encodeZsetKey name key)).get (encodeZsetKey name key') =
      if key' = key then none else db.get (encodeZsetKey name key') := by
  have hiff : encodeZsetKey name key' = encodeZsetKey name key ↔ key' = key := by
    constructor
    · exact fun h => (encodeZsetKey_inj hname hkey h.symm).2.symm
    · exact fun h => by rw [h]
  simp only [OrderedMap.get_delete, hiff]

/-- Two entries of a set by score are the same for the same member and score only. -/
theorem zscoreKey_eq_iff (hname : IsShort name) (hkey : IsShort key) {s : ℤ}
    (hs : IsInt64 s) (key' : Bytes) {s' : ℤ} (hs' : IsInt64 s') :
    encodeZscoreKey name key' (str s') = encodeZscoreKey name key (str s) ↔ key' = key ∧ s' = s := by
  constructor
  · intro h
    obtain ⟨-, hkeys, hscores⟩ := encodeZscoreKey_inj hname hkey h.symm
    rw [strtoll_str hs, strtoll_str hs'] at hscores
    exact ⟨hkeys.symm, hscores.symm⟩
  · rintro ⟨rfl, rfl⟩
    rfl

/-- An entry by score that is put is read back, and the others stay. -/
theorem get_put_zscore (hname : IsShort name) (hkey : IsShort key) {s : ℤ}
    (hs : IsInt64 s) (key' : Bytes) {s' : ℤ} (hs' : IsInt64 s') :
    (db.put (encodeZscoreKey name key (str s)) v).get (encodeZscoreKey name key' (str s')) =
      if key' = key ∧ s' = s then some v else db.get (encodeZscoreKey name key' (str s')) := by
  simp only [OrderedMap.get_put, zscoreKey_eq_iff hname hkey hs key' hs']

/-- An entry by score that is deleted is gone, and the others stay. -/
theorem get_delete_zscore (hname : IsShort name) (hkey : IsShort key) {s : ℤ}
    (hs : IsInt64 s) (key' : Bytes) {s' : ℤ} (hs' : IsInt64 s') :
    (db.delete (encodeZscoreKey name key (str s))).get (encodeZscoreKey name key' (str s')) =
      if key' = key ∧ s' = s then none else db.get (encodeZscoreKey name key' (str s')) := by
  simp only [OrderedMap.get_delete, zscoreKey_eq_iff hname hkey hs key' hs']

end Records

section CrossTypes

variable (db : Db) (name key score name' key' score' : Bytes) (v : Value)

/-- A write of an entry by score does not touch the scores of members. -/
@[simp]
theorem get_put_zscore_zset : (db.put (encodeZscoreKey name key score) v).get
    (encodeZsetKey name' key') = db.get (encodeZsetKey name' key') :=
  OrderedMap.get_put_of_ne db v (zsetKey_ne_zscoreKey _ _ _ _ _)

@[simp]
theorem get_delete_zscore_zset : (db.delete (encodeZscoreKey name key score)).get
    (encodeZsetKey name' key') = db.get (encodeZsetKey name' key') :=
  OrderedMap.get_delete_of_ne db (zsetKey_ne_zscoreKey _ _ _ _ _)

/-- A write of a size does not touch the scores of members. -/
@[simp]
theorem get_put_zsize_zset : (db.put (encodeZsizeKey name) v).get
    (encodeZsetKey name' key') = db.get (encodeZsetKey name' key') :=
  OrderedMap.get_put_of_ne db v (zsetKey_ne_zsizeKey _ _ _)

@[simp]
theorem get_delete_zsize_zset : (db.delete (encodeZsizeKey name)).get
    (encodeZsetKey name' key') = db.get (encodeZsetKey name' key') :=
  OrderedMap.get_delete_of_ne db (zsetKey_ne_zsizeKey _ _ _)

/-- A write of a score does not touch the entries by score. -/
@[simp]
theorem get_put_zset_zscore : (db.put (encodeZsetKey name key) v).get
    (encodeZscoreKey name' key' score') = db.get (encodeZscoreKey name' key' score') :=
  OrderedMap.get_put_of_ne db v (zsetKey_ne_zscoreKey _ _ _ _ _).symm

@[simp]
theorem get_delete_zset_zscore : (db.delete (encodeZsetKey name key)).get
    (encodeZscoreKey name' key' score') = db.get (encodeZscoreKey name' key' score') :=
  OrderedMap.get_delete_of_ne db (zsetKey_ne_zscoreKey _ _ _ _ _).symm

/-- A write of a size does not touch the entries by score. -/
@[simp]
theorem get_put_zsize_zscore : (db.put (encodeZsizeKey name) v).get
    (encodeZscoreKey name' key' score') = db.get (encodeZscoreKey name' key' score') :=
  OrderedMap.get_put_of_ne db v (zscoreKey_ne_zsizeKey _ _ _ _)

@[simp]
theorem get_delete_zsize_zscore : (db.delete (encodeZsizeKey name)).get
    (encodeZscoreKey name' key' score') = db.get (encodeZscoreKey name' key' score') :=
  OrderedMap.get_delete_of_ne db (zscoreKey_ne_zsizeKey _ _ _ _)

/-- A write of a score does not touch the sizes. -/
@[simp]
theorem get_put_zset_zsize : (db.put (encodeZsetKey name key) v).get (encodeZsizeKey name') =
    db.get (encodeZsizeKey name') :=
  OrderedMap.get_put_of_ne db v (zsetKey_ne_zsizeKey _ _ _).symm

@[simp]
theorem get_delete_zset_zsize : (db.delete (encodeZsetKey name key)).get (encodeZsizeKey name') =
    db.get (encodeZsizeKey name') :=
  OrderedMap.get_delete_of_ne db (zsetKey_ne_zsizeKey _ _ _).symm

/-- A write of an entry by score does not touch the sizes. -/
@[simp]
theorem get_put_zscore_zsize : (db.put (encodeZscoreKey name key score) v).get
    (encodeZsizeKey name') = db.get (encodeZsizeKey name') :=
  OrderedMap.get_put_of_ne db v (zscoreKey_ne_zsizeKey _ _ _ _).symm

@[simp]
theorem get_delete_zscore_zsize : (db.delete (encodeZscoreKey name key score)).get
    (encodeZsizeKey name') = db.get (encodeZsizeKey name') :=
  OrderedMap.get_delete_of_ne db (zscoreKey_ne_zsizeKey _ _ _ _).symm

end CrossTypes

namespace Db.IsZset

variable {db : Db} {name : Bytes} {content : Bytes → Option ℤ} {keys : List Bytes} {key : Bytes}

/-- `zget` prints the score of the member. -/
theorem zget_eq (h : db.IsZset name content keys) (key : Bytes) :
    zget db name key = (content key).map str := by
  rw [zget, h.member]
  cases content key <;> rfl

/-- `zsize` is the number of members. -/
theorem zsize_eq (h : db.IsZset name content keys) : zsize db name = keys.length := by
  rw [zsize, h.size]
  by_cases hnil : keys = []
  · rw [if_pos hnil, hnil]
    rfl
  · rw [if_neg hnil]
    simp only [Value.int64]
    rw [if_neg (by omega)]

/-- A new member. -/
theorem insert (h : db.IsZset name content keys) (hname : IsShort name) (hkey : IsShort key)
    (hnew : content key = none) {s : ℤ} (hs : IsInt64 s) :
    Db.IsZset (((db.put (encodeZscoreKey name key (str s)) (.bytes [])).put (encodeZsetKey name key)
      (.bytes (str s))).put (encodeZsizeKey name) (.int (keys.length + 1)))
      name (Function.update content key (some s)) (key :: keys) where
  member := by
    intro key'
    rw [get_put_zsize_zset, get_put_zset _ _ hname hkey, get_put_zscore_zset, h.member,
      Function.update_apply]
    split_ifs <;> rfl
  score := by
    intro key' s' hs'
    rw [get_put_zsize_zscore, get_put_zset_zscore, get_put_zscore _ _ hname hkey hs key' hs',
      h.score key' s' hs', Function.update_apply]
    by_cases hk : key' = key
    · subst hk
      by_cases heq : s' = s
      · simp [heq]
      · rw [if_neg (by tauto), if_pos rfl, hnew, if_neg (by simp),
          if_neg (by simpa using Ne.symm heq)]
    · rw [if_neg (by tauto), if_neg hk]
  size := by simp
  nodup := by
    rw [List.nodup_cons]
    refine ⟨?_, h.nodup⟩
    rw [h.mem_keys, hnew]
    simp
  mem_keys := by
    intro key'
    rw [List.mem_cons, h.mem_keys, Function.update_apply]
    by_cases hk : key' = key
    · simp [hk]
    · simp [hk]
  isInt64 := by
    intro key' s' hs'
    rw [Function.update_apply] at hs'
    split_ifs at hs'
    · rw [← Option.some.inj hs']
      exact hs
    · exact h.isInt64 key' s' hs'

/-- Another score for a member. -/
theorem update (h : db.IsZset name content keys) (hname : IsShort name) (hkey : IsShort key)
    {t s : ℤ} (hold : content key = some t) (hs : IsInt64 s) :
    Db.IsZset (((db.delete (encodeZscoreKey name key (str t))).put (encodeZscoreKey name key (str s))
      (.bytes [])).put (encodeZsetKey name key) (.bytes (str s)))
      name (Function.update content key (some s)) keys where
  member := by
    intro key'
    rw [get_put_zset _ _ hname hkey, get_put_zscore_zset, get_delete_zscore_zset, h.member,
      Function.update_apply]
    split_ifs <;> rfl
  score := by
    intro key' s' hs'
    rw [get_put_zset_zscore, get_put_zscore _ _ hname hkey hs key' hs',
      get_delete_zscore _ hname hkey (h.isInt64 key t hold) key' hs', h.score key' s' hs',
      Function.update_apply]
    by_cases hk : key' = key
    · subst hk
      by_cases heq : s' = s
      · simp [heq]
      · have hne : ¬ some s = some s' := by simpa using Ne.symm heq
        rw [if_neg (by tauto), if_pos rfl, if_neg hne, hold]
        by_cases ht : s' = t
        · rw [if_pos ⟨rfl, ht⟩]
        · rw [if_neg (by tauto), if_neg (by simpa using Ne.symm ht)]
    · rw [if_neg (by tauto), if_neg (by tauto), if_neg hk]
  size := by simpa using h.size
  nodup := h.nodup
  mem_keys := by
    intro key'
    rw [h.mem_keys, Function.update_apply]
    by_cases hk : key' = key
    · simp [hk, hold]
    · simp [hk]
  isInt64 := by
    intro key' s' hs'
    rw [Function.update_apply] at hs'
    split_ifs at hs'
    · rw [← Option.some.inj hs']
      exact hs
    · exact h.isInt64 key' s' hs'

/-- A member less: the calls of `zdel`. -/
theorem remove (h : db.IsZset name content keys) (hname : IsShort name) (hkey : IsShort key)
    {t : ℤ} (hold : content key = some t) :
    Db.IsZset (Db.apply ((db.delete (encodeZscoreKey name key (str t))).delete
      (encodeZsetKey name key)) (incrZsize db name (-1)))
      name (Function.update content key none) (keys.erase key) := by
  have hmem : key ∈ keys := by
    rw [h.mem_keys, hold]
    rfl
  have hlength := List.length_erase_of_mem hmem
  have hpos := List.length_pos_of_mem hmem
  -- the size goes with the last member
  have happly : ∀ db' : Db, Db.apply db' (incrZsize db name (-1)) =
      if keys.erase key = [] then db'.delete (encodeZsizeKey name)
      else db'.put (encodeZsizeKey name) (.int (keys.erase key).length) := by
    intro db'
    rw [incrZsize, h.zsize_eq]
    by_cases hnil : keys.erase key = []
    · rw [if_pos hnil]
      rw [hnil, List.length_nil] at hlength
      simp only [if_pos (show (keys.length : ℤ) + -1 = 0 by omega)]
      rfl
    · rw [if_neg hnil]
      have hpos' := List.length_pos_of_ne_nil hnil
      simp only [if_neg (show ¬ (keys.length : ℤ) + -1 = 0 by omega)]
      rw [show (keys.length : ℤ) + -1 = ((keys.erase key).length : ℕ) by omega]
      rfl
  -- the size does not touch the other two kinds of records
  have hzset : ∀ key', (Db.apply ((db.delete (encodeZscoreKey name key (str t))).delete
      (encodeZsetKey name key)) (incrZsize db name (-1))).get (encodeZsetKey name key') =
        if key' = key then none else db.get (encodeZsetKey name key') := by
    intro key'
    rw [happly]
    split_ifs with hnil hk hk
    · rw [get_delete_zsize_zset, get_delete_zset _ hname hkey, if_pos hk]
    · rw [get_delete_zsize_zset, get_delete_zset _ hname hkey, if_neg hk, get_delete_zscore_zset]
    · rw [get_put_zsize_zset, get_delete_zset _ hname hkey, if_pos hk]
    · rw [get_put_zsize_zset, get_delete_zset _ hname hkey, if_neg hk, get_delete_zscore_zset]
  have hzscore : ∀ key' score', (Db.apply ((db.delete (encodeZscoreKey name key (str t))).delete
      (encodeZsetKey name key)) (incrZsize db name (-1))).get (encodeZscoreKey name key' score') =
        (db.delete (encodeZscoreKey name key (str t))).get (encodeZscoreKey name key' score') := by
    intro key' score'
    rw [happly]
    split_ifs
    · rw [get_delete_zsize_zscore, get_delete_zset_zscore]
    · rw [get_put_zsize_zscore, get_delete_zset_zscore]
  constructor
  case member =>
    intro key'
    rw [hzset, h.member, Function.update_apply]
    split_ifs <;> rfl
  case score =>
    intro key' s' hs'
    rw [hzscore, get_delete_zscore _ hname hkey (h.isInt64 key t hold) key' hs',
      h.score key' s' hs', Function.update_apply]
    -- the entry by score is taken for the old score only
    by_cases hk : key' = key
    · subst hk
      rw [if_pos rfl, if_neg (show ¬ (none : Option ℤ) = some s' by simp)]
      by_cases ht : s' = t
      · rw [if_pos ⟨rfl, ht⟩]
      · rw [if_neg (by tauto), hold, if_neg (by simpa using Ne.symm ht)]
    · rw [if_neg (by tauto), if_neg hk]
  case size =>
    rw [happly]
    split_ifs
    · exact OrderedMap.get_delete_self _ _
    · exact OrderedMap.get_put_self _ _ _
  case nodup => exact h.nodup.erase key
  case mem_keys =>
    intro key'
    rw [h.nodup.mem_erase_iff, h.mem_keys, Function.update_apply]
    by_cases hk : key' = key
    · simp [hk]
    · simp [hk]
  case isInt64 =>
    intro key' s' hs'
    rw [Function.update_apply] at hs'
    split_ifs at hs'
    exact h.isInt64 key' s' hs'

end Db.IsZset

/-! ## Other sorted sets -/

/-- The keys of the records of a member. -/
def IsMemberKey (name key k : Bytes) : Prop :=
  k = encodeZsetKey name key ∨ k = encodeZsizeKey name ∨ ∃ score, k = encodeZscoreKey name key score

/-- A sorted set depends on its own records. -/
theorem Db.IsZset.congr {db db' : Db} {name : Bytes} {content : Bytes → Option ℤ} {keys : List Bytes}
    (h : db.IsZset name content keys)
    (hzset : ∀ key, db'.get (encodeZsetKey name key) = db.get (encodeZsetKey name key))
    (hzscore : ∀ key score,
      db'.get (encodeZscoreKey name key score) = db.get (encodeZscoreKey name key score))
    (hzsize : db'.get (encodeZsizeKey name) = db.get (encodeZsizeKey name)) :
    db'.IsZset name content keys where
  member := fun key => (hzset key).trans (h.member key)
  score := fun key s hs => (hzscore key _).trans (h.score key s hs)
  size := hzsize.trans h.size
  nodup := h.nodup
  mem_keys := h.mem_keys
  isInt64 := h.isInt64

/-- A set stays as it is under writes to a member of another one. -/
theorem Db.IsZset.apply_other {db : Db} {name name' key : Bytes} {content : Bytes → Option ℤ}
    {keys : List Bytes} {ws : List Write} (h : db.IsZset name' content keys) (hne : name' ≠ name)
    (hname : IsShort name) (hkey : IsShort key) (hws : ∀ w ∈ ws, w.OnKeys (IsMemberKey name key)) :
    Db.IsZset (db.apply ws) name' content keys := by
  apply h.congr
  · intro key'
    apply get_apply_of_onKeys hws
    rintro (heq | heq | ⟨score, heq⟩)
    · exact hne (encodeZsetKey_inj hname hkey heq.symm).1.symm
    · exact zsetKey_ne_zsizeKey _ _ _ heq
    · exact zsetKey_ne_zscoreKey _ _ _ _ _ heq
  · intro key' score
    apply get_apply_of_onKeys hws
    rintro (heq | heq | ⟨score', heq⟩)
    · exact zsetKey_ne_zscoreKey _ _ _ _ _ heq.symm
    · exact zscoreKey_ne_zsizeKey _ _ _ _ heq
    · exact hne (encodeZscoreKey_inj hname hkey heq.symm).1.symm
  · apply get_apply_of_onKeys hws
    rintro (heq | heq | ⟨score, heq⟩)
    · exact zsetKey_ne_zsizeKey _ _ _ heq.symm
    · exact hne (List.cons.inj heq).2
    · exact zscoreKey_ne_zsizeKey _ _ _ _ heq.symm

/-- The change of a size writes to the set only. -/
theorem onMember_incrZsize (db : Db) (name key : Bytes) (incr : ℤ) :
    ∀ w ∈ incrZsize db name incr, w.OnKeys (IsMemberKey name key) := by
  intro w hw
  unfold incrZsize at hw
  dsimp only at hw
  split at hw
  · rw [List.mem_singleton.mp hw]
    exact Or.inr (Or.inl rfl)
  · rw [List.mem_singleton.mp hw]
    exact Or.inr (Or.inl rfl)

/-- A score that is set writes to the member only. -/
theorem onMember_zsetOne (db : Db) (name key score : Bytes) (logType : BinlogType) :
    ∀ w ∈ (zsetOne db name key score logType).2, w.OnKeys (IsMemberKey name key) := by
  intro w hw
  unfold zsetOne at hw
  split at hw
  · cases hw
  · split at hw
    · cases hw
    · dsimp only at hw
      split at hw
      · simp only [List.mem_cons, List.not_mem_nil, or_false] at hw
        rcases hw with rfl | rfl | rfl
        · exact Or.inr (Or.inr ⟨_, rfl⟩)
        · exact Or.inl rfl
        · trivial
      · split at hw
        · cases hw
        · simp only [List.mem_cons, List.not_mem_nil, or_false] at hw
          rcases hw with rfl | rfl | rfl | rfl
          · exact Or.inr (Or.inr ⟨_, rfl⟩)
          · exact Or.inr (Or.inr ⟨_, rfl⟩)
          · exact Or.inl rfl
          · trivial

/-- A member that is deleted writes to itself only. -/
theorem onMember_zdelOne (db : Db) (name key : Bytes) (logType : BinlogType) :
    ∀ w ∈ (zdelOne db name key logType).2, w.OnKeys (IsMemberKey name key) := by
  intro w hw
  unfold zdelOne at hw
  split at hw
  · cases hw
  · split at hw
    · cases hw
    · simp only [List.mem_cons, List.not_mem_nil, or_false] at hw
      rcases hw with rfl | rfl | rfl
      · exact Or.inr (Or.inr ⟨_, rfl⟩)
      · exact Or.inl rfl
      · trivial

/-! ## What the operations do to the three views -/

/-- The calls that `zset` and `zincr` commit. -/
def zsetWrites (db : Db) (name key score : Bytes) (logType : BinlogType) : List Write :=
  let (ret, ws) := zsetOne db name key score logType
  if 0 < ret then ws ++ incrZsize db name ret else ws

/-- A refused write writes nothing. -/
theorem zsetOne_of_neg {db : Db} {name key score : Bytes} {logType : BinlogType}
    (h : (zsetOne db name key score logType).1 < 0) : (zsetOne db name key score logType).2 = [] := by
  unfold zsetOne at h ⊢
  split at h
  · rename_i hempty
    rw [if_pos hempty]
  · rename_i hempty
    rw [if_neg hempty]
    split at h
    · rename_i hlong
      rw [if_pos hlong]
    · dsimp only at h
      split at h
      · exact absurd h (by simp)
      · split at h
        · exact absurd h (by simp)
        · exact absurd h (by simp)

/-- `zset` fails for a name or a key that is too long. -/
theorem zset_ret_neg (db : Db) (name key score : Bytes) (logType : BinlogType) :
    (zset db name key score logType).1 = -1 ↔
      ¬ (name = [] ∨ key = []) ∧ (keyLenMax < name.length ∨ keyLenMax < key.length) := by
  have hret : (zset db name key score logType).1 = (zsetOne db name key score logType).1 := by
    simp only [zset]
    split <;> rfl
  rw [hret, zsetOne]
  by_cases hempty : name = [] ∨ key = []
  · rw [if_pos hempty]
    simp [hempty]
  · rw [if_neg hempty]
    by_cases hlong : keyLenMax < name.length ∨ keyLenMax < key.length
    · rw [if_pos hlong]
      simp [hempty, hlong]
    · rw [if_neg hlong]
      simp only [hlong, and_false, iff_false]
      cases zget db name key with
      | none => simp
      | some old =>
          dsimp only
          split <;> simp

/-- What `zset` writes. -/
theorem zset_writes (db : Db) (name key score : Bytes) (logType : BinlogType) :
    (zset db name key score logType).2 = zsetWrites db name key score logType := by
  simp only [zset, zsetWrites]
  by_cases hneg : (zsetOne db name key score logType).1 < 0
  · rw [if_pos hneg, if_neg (by omega), zsetOne_of_neg hneg]
  · rw [if_neg hneg]

/-- `zincr` writes what `zset` writes for the new score. -/
theorem zincr_writes (db : Db) (name key : Bytes) (by_ : ℤ) (logType : BinlogType) :
    (zincr db name key by_ logType).2.2 =
      zsetWrites db name key (str (zincrScore db name key by_)) logType := by
  simp only [zincr, zsetWrites]
  split
  · rename_i hret
    rw [hret, if_neg (by decide), zsetOne_of_neg (by rw [hret]; decide)]
  · rfl

/-- What `zdel` writes: nothing, or the two deletions and the size. -/
theorem zdel_writes {db : Db} {name key : Bytes} {logType : BinlogType}
    (hname : IsShort name) (hkey : IsShort key) :
    (zdel db name key logType).2 =
      match zget db name key with
      | none => []
      | some oldScore =>
          .delete (encodeZscoreKey name key oldScore) :: .delete (encodeZsetKey name key) ::
            .addLog logType .zdel (encodeZsetKey name key) :: incrZsize db name (-1) := by
  have hshort : ¬ (keyLenMax < name.length ∨ keyLenMax < key.length) := by
    simp only [IsShort, keyLenMax] at *
    omega
  rw [zdel, zdelOne, if_neg hshort]
  cases zget db name key with
  | none => rfl
  | some oldScore => rfl

/-- Nothing is written for a name or a key that is too long. -/
theorem zdel_long {db : Db} {name key : Bytes} {logType : BinlogType}
    (h : ¬ (IsShort name ∧ IsShort key)) : (zdel db name key logType).2 = [] := by
  have hlong : keyLenMax < name.length ∨ keyLenMax < key.length := by
    simp only [IsShort, keyLenMax] at *
    omega
  rw [zdel, zdelOne, if_pos hlong]
  rfl

/-- `zset` writes to the member only. -/
theorem onMember_zsetWrites (db : Db) (name key score : Bytes) (logType : BinlogType) :
    ∀ w ∈ zsetWrites db name key score logType, w.OnKeys (IsMemberKey name key) := by
  intro w hw
  simp only [zsetWrites] at hw
  split at hw
  · rcases List.mem_append.mp hw with hw | hw
    · exact onMember_zsetOne db name key score logType w hw
    · exact onMember_incrZsize db name key _ w hw
  · exact onMember_zsetOne db name key score logType w hw

/-- `zdel` writes to the member only. -/
theorem onMember_zdel (db : Db) (name key : Bytes) (logType : BinlogType) :
    ∀ w ∈ (zdel db name key logType).2, w.OnKeys (IsMemberKey name key) := by
  intro w hw
  simp only [zdel] at hw
  split at hw
  · cases hw
  · split at hw
    · rcases List.mem_append.mp hw with hw | hw
      · exact onMember_zdelOne db name key logType w hw
      · exact onMember_incrZsize db name key _ w hw
    · exact onMember_zdelOne db name key logType w hw

namespace Db.IsZset

variable {db : Db} {name : Bytes} {content : Bytes → Option ℤ} {keys : List Bytes} {key : Bytes}

/-- **`zset_one` with its size update sets the score of a member** in all three views. -/
theorem zsetWrites_spec (h : db.IsZset name content keys) (hname : name ≠ []) (hkey : key ≠ [])
    (hname' : IsShort name) (hkey' : IsShort key) (score : Bytes) (logType : BinlogType) :
    ∃ keys', Db.IsZset (db.apply (zsetWrites db name key score logType)) name
      (Function.update content key (some (strtoll score))) keys' := by
  have hempty : ¬ (name = [] ∨ key = []) := by tauto
  have hlong : ¬ (keyLenMax < name.length ∨ keyLenMax < key.length) := by
    simp only [IsShort, keyLenMax] at *
    omega
  have hs := isInt64_strtoll score
  have hget := h.zget_eq key
  cases hold : content key with
  | none =>
      rw [hold, Option.map_none] at hget
      have hwrites : zsetWrites db name key score logType =
          [.put (encodeZscoreKey name key (str (strtoll score))) (.bytes []),
            .put (encodeZsetKey name key) (.bytes (str (strtoll score))),
            .addLog logType .zset (encodeZsetKey name key),
            .put (encodeZsizeKey name) (.int (keys.length + 1))] := by
        simp only [zsetWrites, zsetOne, if_neg hempty, if_neg hlong, hget, filterScore, incrZsize,
          h.zsize_eq, if_neg (show ¬ (keys.length : ℤ) + 1 = 0 by omega)]
        rfl
      rw [hwrites]
      exact ⟨key :: keys, h.insert hname' hkey' hold hs⟩
  | some t =>
      rw [hold, Option.map_some] at hget
      by_cases heq : str t = str (strtoll score)
      · have hwrites : zsetWrites db name key score logType = [] := by
          simp only [zsetWrites, zsetOne, if_neg hempty, if_neg hlong, hget, filterScore, heq, if_true]
          rfl
        have hsame : Function.update content key (some (strtoll score)) = content := by
          rw [← str_injective heq, ← hold, Function.update_eq_self]
        rw [hwrites, hsame]
        exact ⟨keys, h⟩
      · have hwrites : zsetWrites db name key score logType =
            [.delete (encodeZscoreKey name key (str t)),
              .put (encodeZscoreKey name key (str (strtoll score))) (.bytes []),
              .put (encodeZsetKey name key) (.bytes (str (strtoll score))),
              .addLog logType .zset (encodeZsetKey name key)] := by
          simp only [zsetWrites, zsetOne, if_neg hempty, if_neg hlong, hget, filterScore, heq,
            if_false]
          rfl
        rw [hwrites]
        exact ⟨keys, h.update hname' hkey' hold hs⟩

/-- **`zdel` removes a member** from all three views. -/
theorem zdel_spec (h : db.IsZset name content keys) (hname : IsShort name) (hkey : IsShort key)
    (logType : BinlogType) :
    ∃ keys', Db.IsZset (db.apply (zdel db name key logType).2) name
      (Function.update content key none) keys' := by
  rw [zdel_writes hname hkey, h.zget_eq]
  cases hold : content key with
  | none =>
      have hsame : Function.update content key none = content := by
        rw [← hold, Function.update_eq_self]
      rw [hsame]
      exact ⟨keys, h⟩
  | some t => exact ⟨_, h.remove hname hkey hold⟩

end Db.IsZset

/-- Every sorted set of the database is a finite map. -/
def Db.AllZsets (db : Db) : Prop := ∀ name, ∃ content keys, db.IsZset name content keys

/-- Nothing is written for an empty name or key, or one that is too long. -/
theorem zsetWrites_invalid {db : Db} {name key score : Bytes} {logType : BinlogType}
    (h : ¬ (name ≠ [] ∧ key ≠ [] ∧ IsShort name ∧ IsShort key)) :
    zsetWrites db name key score logType = [] := by
  by_cases hempty : name = [] ∨ key = []
  · simp only [zsetWrites, zsetOne, if_pos hempty]
    rfl
  · have hlong : keyLenMax < name.length ∨ keyLenMax < key.length := by
      simp only [IsShort, keyLenMax] at *
      by_contra hshort
      exact h ⟨by tauto, by tauto, by omega, by omega⟩
    simp only [zsetWrites, zsetOne, if_neg hempty, if_pos hlong]
    rfl

/-- `zset` keeps the records of all sets together. -/
theorem Db.AllZsets.zsetWrites {db : Db} (h : db.AllZsets) (name key score : Bytes)
    (logType : BinlogType) : Db.AllZsets (db.apply (zsetWrites db name key score logType)) := by
  by_cases hvalid : name ≠ [] ∧ key ≠ [] ∧ IsShort name ∧ IsShort key
  · obtain ⟨hname, hkey, hname', hkey'⟩ := hvalid
    intro name'
    obtain ⟨content, keys, hz⟩ := h name'
    rcases eq_or_ne name' name with rfl | hne
    · obtain ⟨keys', hz'⟩ := hz.zsetWrites_spec hname hkey hname' hkey' score logType
      exact ⟨_, keys', hz'⟩
    · exact ⟨content, keys, hz.apply_other hne hname' hkey'
        (onMember_zsetWrites db name key score logType)⟩
  · rw [zsetWrites_invalid hvalid]
    exact h

/-- And so does `zdel`. -/
theorem Db.AllZsets.zdel {db : Db} (h : db.AllZsets) (name key : Bytes) (logType : BinlogType) :
    Db.AllZsets (db.apply (zdel db name key logType).2) := by
  by_cases hvalid : IsShort name ∧ IsShort key
  · obtain ⟨hname, hkey⟩ := hvalid
    intro name'
    obtain ⟨content, keys, hz⟩ := h name'
    rcases eq_or_ne name' name with rfl | hne
    · obtain ⟨keys', hz'⟩ := hz.zdel_spec hname hkey logType
      exact ⟨_, keys', hz'⟩
    · exact ⟨content, keys, hz.apply_other hne hname hkey (onMember_zdel db name key logType)⟩
  · rw [zdel_long hvalid]
    exact h

/-! ## Every command keeps the views together -/

namespace Db.AllZsets

/-- In the empty store there is nothing to fit. -/
theorem empty : Db.AllZsets OrderedMap.empty := by
  intro name
  refine ⟨fun _ => none, [], ?_, ?_, rfl, List.nodup_nil, ?_, ?_⟩
  · exact fun key => rfl
  · exact fun key s hs => rfl
  · exact fun key => by simp
  · exact fun key s hs => by cases hs

/-- The loop of `multi_zdel` keeps them together. -/
theorem zdelLoop (name : Bytes) (keys : List Bytes) : ∀ {db : Db}, db.AllZsets →
    Db.AllZsets (zdelLoop name keys db).1 := by
  induction keys with
  | nil => intro db h; exact h
  | cons key keys ih =>
      intro db h
      have hdel := h.zdel name key .sync
      simp only [Ssdb.zdelLoop]
      split
      · exact hdel
      · exact ih hdel

/-- The loop of the pops keeps them together. -/
theorem zpop (name : Bytes) (members : List (Bytes × Bytes)) : ∀ {db : Db}, db.AllZsets →
    Db.AllZsets (zpop name members db).1 := by
  induction members with
  | nil => intro db h; exact h
  | cons member members ih => intro db h; exact ih (h.zdel name member.1 .sync)

/-- The loop of `multi_zset` keeps them together. -/
theorem procMultiZset (name : Bytes) (members : List (Bytes × Bytes)) : ∀ {db : Db} (num : ℤ),
    db.AllZsets → Db.AllZsets (procMultiZset name num members db).1 := by
  induction members with
  | nil => intro db num h; exact h
  | cons member members ih =>
      intro db num h
      have hset : Db.AllZsets (db.apply (zset db name member.1 member.2 .sync).2) := by
        rw [zset_writes]
        exact h.zsetWrites name member.1 member.2 .sync
      simp only [Ssdb.procMultiZset]
      split
      · exact hset
      · exact ih _ hset

/-- The rounds of `zclear` keep them together. -/
theorem zclearRounds (name : Bytes) (fuel : ℕ) : ∀ {db : Db} (keyStart scoreStart : Bytes) (count : ℤ),
    db.AllZsets → Db.AllZsets (zclearRounds name fuel keyStart scoreStart count db).1 := by
  induction fuel with
  | zero => intro db keyStart scoreStart count h; exact h
  | succ fuel ih =>
      intro db keyStart scoreStart count h
      simp only [Ssdb.zclearRounds]
      split
      · exact h
      · split
        · exact zdelLoop name _ h
        · exact ih _ _ _ (zdelLoop name _ h)

/-- Every command keeps them together. -/
theorem exec {db : Db} (h : db.AllZsets) (c : ZsetCommand) : Db.AllZsets (c.exec db) := by
  cases c with
  | zset name key score =>
      show Db.AllZsets (db.apply (Ssdb.zset db name key score .sync).2)
      rw [zset_writes]
      exact h.zsetWrites name key score .sync
  | zdel name key => exact h.zdel name key .sync
  | zincr name key by_ =>
      show Db.AllZsets (db.apply (Ssdb.zincr db name key by_ .sync).2.2)
      rw [zincr_writes]
      exact h.zsetWrites name key _ .sync
  | multiZset name members => exact procMultiZset name members 0 h
  | multiZdel name keys => exact zdelLoop name keys h
  | zclear name => exact zclearRounds name _ [] [] 0 h
  | zpopFront name limit => exact zpop name _ h
  | zpopBack name limit => exact zpop name _ h
  | zremrangebyscore name first last => exact zdelLoop name _ h
  | zremrangebyrank name first last => exact zdelLoop name _ h

end Db.AllZsets

/-- The three views of the sorted set `name` agree: a member has a score exactly when that score is
the only one under which it is listed, and the size counts the members. -/
structure Db.ViewsAgree (db : Db) (name : Bytes) : Prop where
  scores : ∀ key s, IsInt64 s →
    (db.get (encodeZsetKey name key) = some (.bytes (str s)) ↔
      ∀ s', IsInt64 s' → ((db.get (encodeZscoreKey name key (str s'))).isSome ↔ s' = s))
  isScore : ∀ key v, db.get (encodeZsetKey name key) = some v → ∃ s, IsInt64 s ∧ v = .bytes (str s)
  size : ∃ keys : List Bytes, keys.Nodup ∧
    (∀ key, key ∈ keys ↔ (db.get (encodeZsetKey name key)).isSome) ∧
    zsize db name = keys.length ∧ (db.get (encodeZsizeKey name) = none ↔ keys = [])

/-- In a set whose records fit together the three views agree. -/
theorem Db.IsZset.viewsAgree {db : Db} {name : Bytes} {content : Bytes → Option ℤ}
    {keys : List Bytes} (h : db.IsZset name content keys) : db.ViewsAgree name where
  scores := by
    intro key s hs
    rw [h.member]
    constructor
    · intro hmember s' hs'
      obtain ⟨t, ht, hstr⟩ := Option.map_eq_some_iff.mp hmember
      have heq : t = s := str_injective (Value.bytes.inj hstr)
      rw [h.score key s' hs', ht, heq]
      by_cases hss : s = s'
      · simp [hss]
      · simp [hss, Ne.symm hss]
    · intro honly
      have hlisted := (honly s hs).mpr rfl
      rw [h.score key s hs] at hlisted
      split at hlisted
      · rename_i hcontent
        rw [hcontent]
        rfl
      · cases hlisted
  isScore := by
    intro key v hv
    rw [h.member] at hv
    obtain ⟨s, hs, rfl⟩ := Option.map_eq_some_iff.mp hv
    exact ⟨s, h.isInt64 key s hs, rfl⟩
  size := by
    refine ⟨keys, h.nodup, ?_, h.zsize_eq, ?_⟩
    · intro key
      rw [h.mem_keys, h.member, Option.isSome_map]
    · rw [h.size]
      split <;> simp_all

/-- **The three views of a sorted set agree** in every state that the commands reach. -/
theorem zset_views_agree (cs : List ZsetCommand) (name : Bytes) :
    (cs.foldl ZsetCommand.exec OrderedMap.empty).ViewsAgree name := by
  have hall : (cs.foldl ZsetCommand.exec OrderedMap.empty).AllZsets := by
    apply List.foldlRecOn (motive := Db.AllZsets) cs
    · exact Db.AllZsets.empty
    · exact fun db h c _ => h.exec c
  obtain ⟨content, keys, h⟩ := hall name
  exact h.viewsAgree

end Ssdb
