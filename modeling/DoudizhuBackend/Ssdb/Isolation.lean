/-
# Containers do not see each other

All containers share the ordered key space of LevelDB.  A write operation touches records of the
containers that it names (`Operation.onOwn`), and a read depends on the records of the containers that it
covers (`Read.result_congr`).  So a write leaves every read of another container as it is, but for one
case.

`ZIterator` does not compare names, and a name is written behind one byte with its length.  A name of 256
more bytes has the same length byte, and if it goes on like a `ZSCORE` record of the shorter name, with
the text of a score and the beginning of a key, then records of the shorter name stand between the bounds
of a walk over the longer one (`ExtendsInto`).  `HIterator` compares names, and the records of the other
kinds have room for the longer name in their keys only if a key is longer than 255 bytes, which the
write operations refuse.

`container_isolation` says that this case is the only one.
-/
import DoudizhuBackend.Ssdb.BackwardScans
import DoudizhuBackend.Ssdb.QueueIndex

namespace Ssdb

/-! ## Containers -/

/-- What has a name of its own: a key with its value, a hash, a sorted set or a queue. -/
inductive Container where
  | pair (key : Bytes)
  | hash (name : Bytes)
  | zset (name : Bytes)
  | queue (name : Bytes)
  deriving DecidableEq

/-- The keys of the records of a container.  Names of hashes and sorted sets and the keys in them have at
most 255 bytes where something is stored. -/
def Container.Owns (k : Bytes) : Container → Prop
  | pair key => k = encodeKvKey key
  | hash name => k = encodeHsizeKey name ∨ ∃ key, IsShort name ∧ IsShort key ∧ k = encodeHashKey name key
  | zset name => k = encodeZsizeKey name ∨ ∃ key, IsShort name ∧ IsShort key ∧
      (k = encodeZsetKey name key ∨ ∃ score, k = encodeZscoreKey name key score)
  | queue name => IsQueueKey name k

/-- The containers that an operation writes. -/
def Operation.Writes (c : Container) : Operation → Prop
  | set key _ => c = .pair key
  | setnx key _ => c = .pair key
  | getset key _ => c = .pair key
  | setbit key _ _ => c = .pair key
  | incr key _ => c = .pair key
  | del key => c = .pair key
  | multiSet kvs => ∃ kv ∈ kvs, c = .pair kv.1
  | multiDel keys => ∃ key ∈ keys, c = .pair key
  | hset name _ _ => c = .hash name
  | hdel name _ => c = .hash name
  | hincr name _ _ => c = .hash name
  | zset name _ _ => c = .zset name
  | zdel name _ => c = .zset name
  | zincr name _ _ => c = .zset name
  | qpush name _ _ => c = .queue name
  | qpop name _ => c = .queue name
  | qset name _ _ => c = .queue name

/-- The containers that a step writes: all of them, for `flushdb`. -/
def StoreStep.Writes (c : Container) : StoreStep → Prop
  | .write op _ => op.Writes c
  | .flushdb => True

/-! ## Reads -/

/-- The commands that read, with their arguments. -/
inductive Read where
  | get (key : Bytes)
  | scan (first last : Bytes) (limit : ℕ)
  | hget (name key : Bytes)
  | hsize (name : Bytes)
  | hscan (name first last : Bytes) (limit : ℕ)
  | hlist (first last : Bytes) (limit : ℕ)
  | zget (name key : Bytes)
  | zsize (name : Bytes)
  | zscan (name key scoreStart scoreEnd : Bytes) (limit : ℕ)
  | zrange (name : Bytes) (offset limit : ℕ)
  | zrank (name key : Bytes)
  | zcount (name scoreStart scoreEnd : Bytes)
  | qsize (name : Bytes)
  | qget (name : Bytes) (index : ℤ)
  | qslice (name : Bytes) (first last : ℤ)
  | qlist (first last : Bytes) (limit : ℕ)

/-- What a read returns. -/
inductive Answer where
  | value (val : Option Bytes)
  | number (n : ℤ)
  | pairs (list : List (Bytes × Bytes))
  | strings (list : List Bytes)
  | item (ret : ℤ) (val : Option Bytes)
  | items (ret : ℤ) (list : List Bytes)

/-- A name or a key in the range of a scan, which has no end if `last` is empty. -/
def InRange (first last s : Bytes) : Prop := first < s ∧ (last = [] ∨ s ≤ last)

namespace Read

/-- The answer to a reading command. -/
def result (db : Db) : Read → Answer
  | get key => .value (Kv.get db key)
  | scan first last limit => .pairs (Kv.scan db first last limit)
  | hget name key => .value (Ssdb.hget db name key)
  | hsize name => .number (Ssdb.hsize db name)
  | hscan name first last limit => .pairs (Ssdb.hscan db name first last limit)
  | hlist first last limit => .strings (Ssdb.hlist db first last limit)
  | zget name key => .value (Ssdb.zget db name key)
  | zsize name => .number (Ssdb.zsize db name)
  | zscan name key scoreStart scoreEnd limit =>
      .pairs (Ssdb.zscan db name key scoreStart scoreEnd limit)
  | zrange name offset limit => .pairs (Ssdb.zrange db name offset limit)
  | zrank name key => .number (Ssdb.zrank db name key)
  | zcount name scoreStart scoreEnd => .strings (procZcount db name scoreStart scoreEnd)
  | qsize name => .number (Ssdb.qsize db name)
  | qget name index => .item (Ssdb.qget db name index).1 (Ssdb.qget db name index).2
  | qslice name first last => .items (Ssdb.qslice db name first last).1 (Ssdb.qslice db name first last).2
  | qlist first last limit => .strings (Ssdb.qlist db first last limit)

/-- The answer for a container that holds nothing. -/
def nothing : Read → Answer
  | get _ => .value none
  | scan _ _ _ => .pairs []
  | hget _ _ => .value none
  | hsize _ => .number 0
  | hscan _ _ _ _ => .pairs []
  | hlist _ _ _ => .strings []
  | zget _ _ => .value none
  | zsize _ => .number 0
  | zscan _ _ _ _ _ => .pairs []
  | zrange _ _ _ => .pairs []
  | zrank _ _ => .number (-1)
  | zcount _ _ _ => .strings [ascii "ok", ascii "0"]
  | qsize _ => .number 0
  | qget _ _ => .item 0 none
  | qslice _ _ _ => .items 0 []
  | qlist _ _ _ => .strings []

/-- The containers that a read is about. -/
def Covers (c : Container) : Read → Prop
  | get key => c = .pair key
  | scan first last _ => ∃ key, c = .pair key ∧ InRange first last key
  | hget name _ => c = .hash name
  | hsize name => c = .hash name
  | hscan name _ _ _ => c = .hash name
  | hlist first last _ => ∃ name, c = .hash name ∧ InRange first last name
  | zget name _ => c = .zset name
  | zsize name => c = .zset name
  | zscan name _ _ _ _ => c = .zset name
  | zrange name _ _ => c = .zset name
  | zrank name _ => c = .zset name
  | zcount name _ _ => c = .zset name
  | qsize name => c = .queue name
  | qget name _ => c = .queue name
  | qslice name _ _ => c = .queue name
  | qlist first last _ => ∃ name, c = .queue name ∧ InRange first last name

/-- The keys of the records that the answer depends on. -/
def DependsOn (k : Bytes) : Read → Prop
  | get key => k = encodeKvKey key
  | scan first last _ => ∃ key, k = encodeKvKey key ∧ InRange first last key
  | hget name key => k = encodeHashKey name key
  | hsize name => k = encodeHsizeKey name
  | hscan name _ _ _ => hashStart name <+: k
  | hlist first last _ => ∃ name, k = encodeHsizeKey name ∧ InRange first last name
  | zget name key => k = encodeZsetKey name key
  | zsize name => k = encodeZsizeKey name
  | zscan name key _ _ _ => k = encodeZsetKey name key ∨ scoreStart name <+: k
  | zrange name _ _ => scoreStart name <+: k
  | zrank name _ => scoreStart name <+: k
  | zcount name _ _ => k = encodeZsetKey name [] ∨ scoreStart name <+: k
  | qsize name => IsQueueKey name k
  | qget name _ => IsQueueKey name k
  | qslice name _ _ => IsQueueKey name k
  | qlist first last _ => ∃ name, k = encodeQsizeKey name ∧ InRange first last name

end Read

/-! ## Where a sorted set is seen under another name -/

/-- `name'` is `name`, the image of a score, and 246 bytes of a key. -/
def ExtendsInto (name name' : Bytes) : Prop :=
  name ≠ [] ∧ IsShort name ∧
    ∃ (s : ℤ) (x : Bytes), IsInt64 s ∧ x.length = 246 ∧ name' = name ++ scoreTail x s

/-- Records of the first container stand between the bounds of a walk over the second one. -/
def Container.SeenIn : Container → Container → Prop
  | zset name, zset name' => ExtendsInto name name'
  | _, _ => False

/-! ## What a read depends on -/

section Congr

variable {db db' : Db}

/-- A common first byte does not change the order. -/
theorem cons_le_cons_iff (b : Byte) {s t : Bytes} : b :: s ≤ b :: t ↔ s ≤ t := by
  have := OrderedMap.append_le_append_iff [b] s t
  exact this

/-- Walks over the names behind a type. -/
theorem typeWalk_congr {type : Byte} {first last : Bytes}
    (h : ∀ s, InRange first last s → db'.get (type :: s) = db.get (type :: s)) (limit : ℕ) :
    (iterator db' (type :: first) (if last = [] then [] else type :: last) limit).takeWhile
        (fun p => [type] <+: p.1) =
      (iterator db (type :: first) (if last = [] then [] else type :: last) limit).takeWhile
        (fun p => [type] <+: p.1) := by
  have hrange := iterator_range db [type] first (if last = [] then [] else type :: last) limit
  have hrange' := iterator_range db' [type] first (if last = [] then [] else type :: last) limit
  rw [List.singleton_append] at hrange hrange'
  rw [hrange, hrange']
  congr 1
  apply OrderedMap.filter_entries_congr (P := fun k => type :: first < k ∧
    ((if last = [] then [] else type :: last) = [] ∨ k ≤ if last = [] then [] else type :: last) ∧
      [type] <+: k)
  rintro _ ⟨hfirst, hlast, s, rfl⟩
  rw [List.singleton_append] at hfirst hlast ⊢
  apply h
  refine ⟨?_, ?_⟩
  · rw [List.cons_lt_cons_iff] at hfirst
    simpa using hfirst
  · split_ifs at hlast with hnil
    · exact Or.inl hnil
    · right
      exact (cons_le_cons_iff type).mp (hlast.resolve_left not_false)

/-- A walk over a sorted set depends on its entries by score. -/
theorem ziterator_congr {name : Bytes}
    (h : ∀ k, scoreStart name <+: k → db'.get k = db.get k) (keyStart scoreStart scoreEnd : Bytes)
    (limit : ℕ) :
    ziterator db' name keyStart scoreStart scoreEnd limit =
      ziterator db name keyStart scoreStart scoreEnd limit := by
  have hlast : ∀ score : Bytes, encodeZscoreKey name keyLast score ≠ [] := fun _ => List.cons_ne_nil _ _
  simp only [ziterator]
  rw [iterator_eq db _ (hlast _), iterator_eq db' _ (hlast _)]
  congr 2
  -- both bounds have the common start, and so has what is between them
  apply OrderedMap.filter_entries_congr (P := fun k =>
    encodeZscoreKey name keyStart (if scoreStart = [] then scoreMin else scoreStart) < k ∧
      k ≤ encodeZscoreKey name keyLast (if scoreEnd = [] then scoreMax else scoreEnd))
  rintro k ⟨hfirst, hend⟩
  rw [encodeZscoreKey_eq] at hfirst hend
  obtain ⟨c, rfl, -, -⟩ := OrderedMap.between_append _ hfirst hend
  exact h _ (List.prefix_append _ c)

/-- So does `zscan`, and on the score of the member where it starts. -/
theorem zscan_congr {name key : Bytes}
    (h : ∀ k, k = encodeZsetKey name key ∨ scoreStart name <+: k → db'.get k = db.get k)
    (scoreStart scoreEnd : Bytes) (limit : ℕ) :
    zscan db' name key scoreStart scoreEnd limit = zscan db name key scoreStart scoreEnd limit := by
  have hzget : zget db' name key = zget db name key := by
    rw [zget, zget, h _ (Or.inl rfl)]
  rw [zscan, zscan, scanScore, scanScore, hzget]
  exact ziterator_congr (fun k hk => h k (Or.inr hk)) _ _ _ _

/-- `hscan` depends on the fields of the hash. -/
theorem hscan_congr (hdb : db.AllHashes) (hdb' : db'.AllHashes) {name : Bytes}
    (h : ∀ k, hashStart name <+: k → db'.get k = db.get k) (first last : Bytes) (limit : ℕ) :
    hscan db' name first last limit = hscan db name first last limit := by
  have hkeys : ∀ {db : Db}, db.AllHashes → ∀ l, ∀ p ∈ iterator db (encodeHashKey name first) l limit,
      IsHashKey p.1 := fun hdb l p hp => hdb.keys p.1 p.2 (mem_iterator hp).2.2
  rw [hscan, hscan]
  by_cases hname : IsShort name
  · rw [hIterator_eq hname (hkeys hdb _), hIterator_eq hname (hkeys hdb' _), encodeHashKey_eq,
      iterator_range, iterator_range]
    congr 2
    apply OrderedMap.filter_entries_congr (P := fun k => hashStart name ++ first < k ∧
      ((if last = [] then [] else encodeHashKey name last) = [] ∨
        k ≤ if last = [] then [] else encodeHashKey name last) ∧ hashStart name <+: k)
    exact fun k hk => h k hk.2.2
  · rw [hIterator_long hname (hkeys hdb _), hIterator_long hname (hkeys hdb' _)]

section Queue

variable {name : Bytes} (h : ∀ k, IsQueueKey name k → db'.get k = db.get k)

include h

/-- `qsize` depends on the records of the queue. -/
theorem qsize_congr : qsize db' name = qsize db name := by
  rw [qsize, qsize, h _ (Or.inl rfl)]

/-- So do the pointers. -/
theorem qgetUint64_congr (seq : ℕ) : qgetUint64 db' name seq = qgetUint64 db name seq := by
  rw [qgetUint64, qgetUint64, h _ (Or.inr ⟨seq, rfl⟩)]

/-- So do the items. -/
theorem qgetBySeq_congr (seq : ℕ) : qgetBySeq db' name seq = qgetBySeq db name seq := by
  rw [qgetBySeq, qgetBySeq, h _ (Or.inr ⟨seq, rfl⟩)]

/-- And so does a slice. -/
theorem qsliceLoop_congr (n : ℕ) : ∀ seq, qsliceLoop db' name n seq = qsliceLoop db name n seq := by
  induction n with
  | zero => intro seq; rfl
  | succ n ih =>
      intro seq
      rw [qsliceLoop, qsliceLoop, qgetBySeq_congr h, ih]

end Queue

/-- **An answer depends on these records only.** -/
theorem Read.result_congr (hdb : db.IsStore) (hdb' : db'.IsStore) (r : Read)
    (h : ∀ k, r.DependsOn k → db'.get k = db.get k) : r.result db' = r.result db := by
  cases r with
  | get key => rw [result, result, Kv.get, Kv.get, h _ rfl]
  | scan first last limit =>
      have hwalk : ∀ s, InRange first last s → db'.get (DataType.KV :: s) = db.get (DataType.KV :: s) :=
        fun s hs => h _ ⟨s, rfl, hs⟩
      simp only [result, Kv.scan, kIterator_eq, encodeKvKey, typeWalk_congr hwalk]
  | hget name key => rw [result, result, Ssdb.hget, Ssdb.hget, h _ rfl]
  | hsize name => rw [result, result, Ssdb.hsize, Ssdb.hsize, h _ rfl]
  | hscan name first last limit =>
      rw [result, result, hscan_congr hdb.hashes hdb'.hashes h]
  | hlist first last limit =>
      have hwalk : ∀ s, InRange first last s →
          db'.get (DataType.HSIZE :: s) = db.get (DataType.HSIZE :: s) := fun s hs => h _ ⟨s, rfl, hs⟩
      simp only [result, Ssdb.hlist, nameIterator_eq, encodeHsizeKey, typeWalk_congr hwalk]
  | zget name key => rw [result, result, Ssdb.zget, Ssdb.zget, h _ rfl]
  | zsize name => rw [result, result, Ssdb.zsize, Ssdb.zsize, h _ rfl]
  | zscan name key scoreStart scoreEnd limit => rw [result, result, zscan_congr h]
  | zrange name offset limit => rw [result, result, Ssdb.zrange, Ssdb.zrange, ziterator_congr h]
  | zrank name key => rw [result, result, Ssdb.zrank, Ssdb.zrank, ziterator_congr h]
  | zcount name scoreStart scoreEnd => rw [result, result, procZcount, procZcount, zscan_congr h]
  | qsize name => rw [result, result, qsize_congr h]
  | qget name index =>
      simp only [result, Ssdb.qget, qgetUint64_congr h, qgetBySeq_congr h]
  | qslice name first last =>
      simp only [result, Ssdb.qslice, qgetUint64_congr h, qsliceLoop_congr h]
  | qlist first last limit =>
      have hwalk : ∀ s, InRange first last s →
          db'.get (DataType.QSIZE :: s) = db.get (DataType.QSIZE :: s) := fun s hs => h _ ⟨s, rfl, hs⟩
      simp only [result, Ssdb.qlist, nameIterator_eq, encodeQsizeKey, typeWalk_congr hwalk]

end Congr

/-! ## What an operation touches -/

/-- Calls on the one record of a key. -/
theorem onPair_put (key val : Bytes) (logType : BinlogType) :
    ∀ w ∈ [Write.put (encodeKvKey key) (.bytes val), .addLog logType .kset (encodeKvKey key)],
      w.OnKeys fun k => (Container.pair key).Owns k := by
  intro w hw
  simp only [List.mem_cons, List.not_mem_nil, or_false] at hw
  rcases hw with rfl | rfl
  · rfl
  · trivial

/-- A deletion of a pair writes to the pair. -/
theorem onPair_delete (key : Bytes) (logType : BinlogType) :
    ∀ w ∈ [Write.delete (encodeKvKey key), .addLog logType .kdel (encodeKvKey key)],
      w.OnKeys fun k => (Container.pair key).Owns k := by
  intro w hw
  simp only [List.mem_cons, List.not_mem_nil, or_false] at hw
  rcases hw with rfl | rfl
  · rfl
  · trivial

/-- The records of a field are those of its hash. -/
theorem owns_of_isFieldKey {name key k : Bytes} (hname : IsShort name) (hkey : IsShort key)
    (h : IsFieldKey name key k) : (Container.hash name).Owns k := by
  rcases h with rfl | rfl
  · exact Or.inr ⟨key, hname, hkey, rfl⟩
  · exact Or.inl rfl

/-- The records of a member are those of its sorted set. -/
theorem owns_of_isMemberKey {name key k : Bytes} (hname : IsShort name) (hkey : IsShort key)
    (h : IsMemberKey name key k) : (Container.zset name).Owns k := by
  rcases h with rfl | rfl | hscore
  · exact Or.inr ⟨key, hname, hkey, Or.inl rfl⟩
  · exact Or.inl rfl
  · exact Or.inr ⟨key, hname, hkey, Or.inr hscore⟩

/-- `hset` and `hincr` write nothing unless name and key are short. -/
theorem onHash_hsetWrites (db : Db) (name key val : Bytes) (logType : BinlogType) :
    ∀ w ∈ hsetWrites db name key val logType, w.OnKeys fun k => (Container.hash name).Owns k := by
  intro w hw
  by_cases hfield : IsField name key
  · exact (onField_hsetWrites db name key val logType w hw).mono fun k =>
      owns_of_isFieldKey hfield.name_short hfield.key_short
  · rw [hsetWrites, hsetOne_refused hfield] at hw
    cases hw

/-- `hdel` writes to its hash. -/
theorem onHash_hdel (db : Db) (name key : Bytes) (logType : BinlogType) :
    ∀ w ∈ (hdel db name key logType).2, w.OnKeys fun k => (Container.hash name).Owns k := by
  intro w hw
  by_cases hshort : IsShort name ∧ IsShort key
  · exact (onField_hdel db name key logType w hw).mono fun k => owns_of_isFieldKey hshort.1 hshort.2
  · rw [hdel, hdelOne_long hshort] at hw
    cases hw

/-- `zset` writes to its sorted set. -/
theorem onZset_zsetWrites (db : Db) (name key score : Bytes) (logType : BinlogType) :
    ∀ w ∈ zsetWrites db name key score logType, w.OnKeys fun k => (Container.zset name).Owns k := by
  intro w hw
  by_cases hvalid : name ≠ [] ∧ key ≠ [] ∧ IsShort name ∧ IsShort key
  · exact (onMember_zsetWrites db name key score logType w hw).mono fun k =>
      owns_of_isMemberKey hvalid.2.2.1 hvalid.2.2.2
  · rw [zsetWrites_invalid hvalid] at hw
    cases hw

/-- `zdel` writes to its sorted set. -/
theorem onZset_zdel (db : Db) (name key : Bytes) (logType : BinlogType) :
    ∀ w ∈ (zdel db name key logType).2, w.OnKeys fun k => (Container.zset name).Owns k := by
  intro w hw
  by_cases hshort : IsShort name ∧ IsShort key
  · exact (onMember_zdel db name key logType w hw).mono fun k => owns_of_isMemberKey hshort.1 hshort.2
  · rw [zdel_long hshort] at hw
    cases hw

/-- **An operation touches records of the containers that it writes.** -/
theorem Operation.onOwn (op : Operation) (db : Db) (logType : BinlogType) :
    ∀ w ∈ op.writes db logType, w.OnKeys fun k => ∃ c, op.Writes c ∧ c.Owns k := by
  intro w hw
  -- an operation on one container
  have hone : ∀ c : Container, op.Writes c → w.OnKeys (fun k => c.Owns k) →
      w.OnKeys fun k => ∃ c, op.Writes c ∧ c.Owns k :=
    fun c hc h => h.mono fun k hk => ⟨c, hc, hk⟩
  cases op with
  | set key val =>
      simp only [writes, Kv.set] at hw
      split at hw
      · cases hw
      · exact hone _ rfl (onPair_put key val logType w hw)
  | setnx key val =>
      simp only [writes, Kv.setnx] at hw
      split at hw
      · cases hw
      · split at hw
        · cases hw
        · exact hone _ rfl (onPair_put key val logType w hw)
  | getset key newval =>
      simp only [writes, Kv.getset] at hw
      split at hw
      · cases hw
      · exact hone _ rfl (onPair_put key newval logType w hw)
  | setbit key offset on =>
      simp only [writes, Kv.setbit] at hw
      split at hw
      · cases hw
      · exact hone _ rfl (onPair_put key _ logType w hw)
  | incr key by_ =>
      simp only [writes, Kv.incr] at hw
      split at hw
      · cases hw
      · exact hone _ rfl (onPair_put key _ logType w hw)
  | del key => exact hone _ rfl (onPair_delete key logType w hw)
  | multiSet kvs =>
      simp only [writes, Kv.multiSet] at hw
      split at hw
      · cases hw
      · obtain ⟨kv, hkv, hw⟩ := List.mem_flatMap.mp hw
        exact hone _ ⟨kv, hkv, rfl⟩ (onPair_put kv.1 kv.2 logType w hw)
  | multiDel keys =>
      obtain ⟨key, hkey, hw⟩ := List.mem_flatMap.mp hw
      exact hone _ ⟨key, hkey, rfl⟩ (onPair_delete key logType w hw)
  | hset name key val =>
      simp only [writes, hset_writes] at hw
      exact hone _ rfl (onHash_hsetWrites db name key val logType w hw)
  | hdel name key => exact hone _ rfl (onHash_hdel db name key logType w hw)
  | hincr name key by_ =>
      simp only [writes, hincr_writes] at hw
      split at hw
      · cases hw
      · exact hone _ rfl (onHash_hsetWrites db name key _ logType w hw)
  | zset name key score =>
      simp only [writes, zset_writes] at hw
      exact hone _ rfl (onZset_zsetWrites db name key score logType w hw)
  | zdel name key => exact hone _ rfl (onZset_zdel db name key logType w hw)
  | zincr name key by_ =>
      simp only [writes, zincr_writes] at hw
      exact hone _ rfl (onZset_zsetWrites db name key _ logType w hw)
  | qpush name item e => exact hone _ rfl (onQueue_qpush db name item e logType w hw)
  | qpop name e => exact hone _ rfl (onQueue_qpop db name e logType w hw)
  | qset name index item => exact hone _ rfl (onQueue_qset db name index item logType w hw)

/-! ## Records that two containers share -/

/-- The family of a container. -/
def Container.family : Container → Family
  | pair _ => .kv
  | hash _ => .hash
  | zset _ => .zset
  | queue _ => .queue

/-- The family that a command reads. -/
def Read.family : Read → Family
  | get .. => .kv
  | scan .. => .kv
  | hget .. => .hash
  | hsize .. => .hash
  | hscan .. => .hash
  | hlist .. => .hash
  | zget .. => .zset
  | zsize .. => .zset
  | zscan .. => .zset
  | zrange .. => .zset
  | zrank .. => .zset
  | zcount .. => .zset
  | qsize .. => .queue
  | qget .. => .queue
  | qslice .. => .queue
  | qlist .. => .queue

/-- The records of a container are of its family. -/
theorem Container.Owns.holds {c : Container} {k : Bytes} (h : c.Owns k) : c.family.Holds k := by
  cases c with
  | pair key =>
      rw [show k = encodeKvKey key from h]
      rfl
  | hash name =>
      rcases h with rfl | ⟨key, -, -, rfl⟩
      · exact Or.inr rfl
      · exact Or.inl rfl
  | zset name =>
      rcases h with rfl | ⟨key, -, -, rfl | ⟨score, rfl⟩⟩
      · exact Or.inr (Or.inr rfl)
      · exact Or.inl rfl
      · exact Or.inr (Or.inl rfl)
  | queue name => exact holds_of_isQueueKey h

/-- The entries by score are of the family of sorted sets. -/
theorem holds_of_scoreStart {name k : Bytes} (h : scoreStart name <+: k) : Family.zset.Holds k := by
  obtain ⟨t, rfl⟩ := h
  exact Or.inr (Or.inl rfl)

/-- What a command reads is of its family. -/
theorem Read.DependsOn.holds {r : Read} {k : Bytes} (h : r.DependsOn k) : r.family.Holds k := by
  cases r with
  | get key =>
      rw [show k = encodeKvKey key from h]
      rfl
  | scan first last limit =>
      obtain ⟨key, rfl, -⟩ := h
      rfl
  | hget name key =>
      rw [show k = encodeHashKey name key from h]
      exact Or.inl rfl
  | hsize name =>
      rw [show k = encodeHsizeKey name from h]
      exact Or.inr rfl
  | hscan name first last limit =>
      obtain ⟨t, rfl⟩ := h
      exact Or.inl rfl
  | hlist first last limit =>
      obtain ⟨name, rfl, -⟩ := h
      exact Or.inr rfl
  | zget name key =>
      rw [show k = encodeZsetKey name key from h]
      exact Or.inl rfl
  | zsize name =>
      rw [show k = encodeZsizeKey name from h]
      exact Or.inr (Or.inr rfl)
  | zscan name key scoreStart scoreEnd limit =>
      rcases h with rfl | h
      · exact Or.inl rfl
      · exact holds_of_scoreStart h
  | zrange name offset limit => exact holds_of_scoreStart h
  | zrank name key => exact holds_of_scoreStart h
  | zcount name scoreStart scoreEnd =>
      rcases h with rfl | h
      · exact Or.inl rfl
      · exact holds_of_scoreStart h
  | qsize name => exact holds_of_isQueueKey h
  | qget name index => exact holds_of_isQueueKey h
  | qslice name first last => exact holds_of_isQueueKey h
  | qlist first last limit =>
      obtain ⟨name, rfl, -⟩ := h
      exact Or.inr rfl

/-- A pair is its own container. -/
theorem pair_of_owns {c : Container} {key : Bytes} (h : c.Owns (encodeKvKey key)) : c = .pair key := by
  have hf : c.family = .kv := Family.eq_of_holds h.holds rfl
  cases c with
  | pair key' => rw [encodeKvKey_inj h]
  | _ => cases hf

/-- A record with the size or of a field of the hash. -/
theorem hash_of_owns {c : Container} {k name : Bytes} (h : c.Owns k)
    (hk : k = encodeHsizeKey name ∨ ∃ key, k = encodeHashKey name key) : c = .hash name := by
  have hholds : Family.hash.Holds k := by
    rcases hk with rfl | ⟨key, rfl⟩
    · exact Or.inr rfl
    · exact Or.inl rfl
  have hf : c.family = .hash := Family.eq_of_holds h.holds hholds
  cases c with
  | hash name' =>
      congr 1
      rcases h with rfl | ⟨key', hname', hkey', rfl⟩
      · rcases hk with heq | ⟨key, heq⟩
        · exact hsizeKey_inj heq
        · exact absurd heq.symm (hashKey_ne_hsizeKey _ _ _)
      · rcases hk with heq | ⟨key, heq⟩
        · exact absurd heq (hashKey_ne_hsizeKey _ _ _)
        · exact (encodeHashKey_inj hname' hkey' heq).1
  | _ => cases hf

/-- A record with the size or the score of a member of the sorted set. -/
theorem zset_of_owns {c : Container} {k name : Bytes} (h : c.Owns k)
    (hk : k = encodeZsizeKey name ∨ ∃ key, k = encodeZsetKey name key) : c = .zset name := by
  have hholds : Family.zset.Holds k := by
    rcases hk with rfl | ⟨key, rfl⟩
    · exact Or.inr (Or.inr rfl)
    · exact Or.inl rfl
  have hf : c.family = .zset := Family.eq_of_holds h.holds hholds
  cases c with
  | zset name' =>
      congr 1
      rcases h with rfl | ⟨key', hname', hkey', rfl | ⟨score, rfl⟩⟩
      · rcases hk with heq | ⟨key, heq⟩
        · exact (List.cons.inj heq).2
        · exact absurd heq.symm (zsetKey_ne_zsizeKey _ _ _)
      · rcases hk with heq | ⟨key, heq⟩
        · exact absurd heq (zsetKey_ne_zsizeKey _ _ _)
        · exact (encodeZsetKey_inj hname' hkey' heq).1
      · rcases hk with heq | ⟨key, heq⟩
        · exact absurd heq (zscoreKey_ne_zsizeKey _ _ _ _)
        · exact absurd heq.symm (zsetKey_ne_zscoreKey _ _ _ _ _)
  | _ => cases hf

/-- The records of a queue are in no other container. -/
theorem queue_of_owns {c : Container} {k name : Bytes} (h : c.Owns k) (hk : IsQueueKey name k) :
    c = .queue name := by
  have hf : c.family = .queue := Family.eq_of_holds h.holds (holds_of_isQueueKey hk)
  cases c with
  | queue name' =>
      congr 1
      rcases h with rfl | ⟨seq, rfl⟩
      · rcases hk with heq | ⟨seq', heq⟩
        · exact (List.cons.inj heq).2
        · exact absurd (List.cons.inj heq).1 (by decide)
      · rcases hk with heq | ⟨seq', heq⟩
        · exact absurd (List.cons.inj heq).1 (by decide)
        · exact name_of_qitemKey heq
  | _ => cases hf

/-- **A `ZSCORE` record that starts like those of another name**: the name is the same, or 256 bytes
longer, and then it goes on like the record. -/
theorem name_of_scoreStart {name name' key : Bytes} {s : ℤ} (hfield : IsField name key)
    (hs : IsInt64 s) (h : scoreStart name' <+: scoreStart name ++ scoreTail key s) :
    name = name' ∨ ExtendsInto name name' := by
  have hname := hfield.name_short
  have hkey := hfield.key_short
  rw [IsShort] at hname hkey
  obtain ⟨t, ht⟩ := h
  simp only [scoreStart, List.cons_append, List.cons.injEq, true_and, lenByte_eq_iff] at ht
  obtain ⟨hmod, ht⟩ := ht
  have hlength := congrArg List.length ht
  have htail : (scoreTail key s).length = 10 + key.length := by
    rw [scoreTail, List.length_append, List.length_cons, length_encodeScore]
    omega
  rw [List.length_append, List.length_append, htail] at hlength
  rcases eq_or_ne name.length name'.length with hsame | hlonger
  · left
    exact (List.append_inj ht hsame.symm).1.symm
  · right
    have h256 : name'.length = name.length + 256 := by omega
    refine ⟨hfield.name_ne_nil, hfield.name_short, s, key.take 246, hs, ?_, ?_⟩
    · rw [List.length_take]
      omega
    · -- the name is what the record has up to its length
      have htake : name' = (name ++ scoreTail key s).take (name.length + 256) := by
        rw [← ht, ← h256, List.take_left]
      rw [htake, List.take_length_add_append, scoreTail, scoreTail, List.take_append,
        length_encodeScore, List.take_of_length_le (by rw [length_encodeScore]; omega)]
      rfl

/-- **A record of one container on which a read of another one depends.** -/
theorem covers_or_seenIn {c : Container} {r : Read} {k : Bytes} (hc : c.Owns k) (hr : r.DependsOn k)
    (hmember : IsMemberScoreKey k) : r.Covers c ∨ ∃ c', r.Covers c' ∧ c.SeenIn c' := by
  -- a scan over scores may meet the entries of another set, whose name begins the same way
  have hzset : ∀ name', scoreStart name' <+: k → c = .zset name' ∨ c.SeenIn (.zset name') := by
    intro name' hstart
    have hf : c.family = .zset := Family.eq_of_holds hc.holds (holds_of_scoreStart hstart)
    have hhead : k.head? = some DataType.ZSCORE := by
      obtain ⟨t, rfl⟩ := hstart
      rfl
    obtain ⟨name₁, key₁, s, hfield, hs, rfl⟩ := hmember hhead
    cases c with
    | zset name =>
        have hname : name = name₁ := by
          rcases hc with heq | ⟨key, hname, hkey, heq | ⟨score, heq⟩⟩
          · exact absurd heq (zscoreKey_ne_zsizeKey _ _ _ _)
          · exact absurd heq.symm (zsetKey_ne_zscoreKey _ _ _ _ _)
          · exact (encodeZscoreKey_inj hname hkey heq.symm).1
        subst hname
        rw [encodeZscoreKey_eq, strtoll_str hs] at hstart
        exact (name_of_scoreStart hfield hs hstart).imp (congrArg Container.zset) id
    | _ => cases hf
  cases r with
  | get key =>
      rw [show k = encodeKvKey key from hr] at hc
      exact Or.inl (pair_of_owns hc)
  | scan first last limit =>
      obtain ⟨key, rfl, hrange⟩ := hr
      exact Or.inl ⟨key, pair_of_owns hc, hrange⟩
  | hget name key => exact Or.inl (hash_of_owns hc (Or.inr ⟨key, hr⟩))
  | hsize name => exact Or.inl (hash_of_owns hc (Or.inl hr))
  | hscan name first last limit =>
      obtain ⟨key, hkey⟩ := hr
      exact Or.inl (hash_of_owns hc (Or.inr ⟨key, by rw [encodeHashKey_eq, hkey]⟩))
  | hlist first last limit =>
      obtain ⟨name, hname, hrange⟩ := hr
      exact Or.inl ⟨name, hash_of_owns hc (Or.inl hname), hrange⟩
  | zget name key => exact Or.inl (zset_of_owns hc (Or.inr ⟨key, hr⟩))
  | zsize name => exact Or.inl (zset_of_owns hc (Or.inl hr))
  | zscan name key scoreStart scoreEnd limit =>
      rcases hr with hkey | hstart
      · exact Or.inl (zset_of_owns hc (Or.inr ⟨key, hkey⟩))
      · exact (hzset name hstart).imp id fun h => ⟨.zset name, rfl, h⟩
  | zrange name offset limit => exact (hzset name hr).imp id fun h => ⟨.zset name, rfl, h⟩
  | zrank name key => exact (hzset name hr).imp id fun h => ⟨.zset name, rfl, h⟩
  | zcount name scoreStart scoreEnd =>
      rcases hr with hkey | hstart
      · exact Or.inl (zset_of_owns hc (Or.inr ⟨[], hkey⟩))
      · exact (hzset name hstart).imp id fun h => ⟨.zset name, rfl, h⟩
  | qsize name => exact Or.inl (queue_of_owns hc hr)
  | qget name index => exact Or.inl (queue_of_owns hc hr)
  | qslice name first last => exact Or.inl (queue_of_owns hc hr)
  | qlist first last limit =>
      obtain ⟨name, hname, hrange⟩ := hr
      exact Or.inl ⟨name, queue_of_owns hc (Or.inl hname), hrange⟩

/-! ## Steps and runs -/

/-- A command that depends on a record covers a container. -/
theorem Read.DependsOn.exists_covers {r : Read} {k : Bytes} (h : r.DependsOn k) : ∃ c, r.Covers c := by
  cases r with
  | scan first last limit =>
      obtain ⟨key, -, hrange⟩ := h
      exact ⟨_, key, rfl, hrange⟩
  | hlist first last limit =>
      obtain ⟨name, -, hrange⟩ := h
      exact ⟨_, name, rfl, hrange⟩
  | qlist first last limit =>
      obtain ⟨name, -, hrange⟩ := h
      exact ⟨_, name, rfl, hrange⟩
  | _ => exact ⟨_, rfl⟩

/-- **A step leaves the reads of other containers as they are.** -/
theorem Read.result_step {db : Db} (hdb : db.IsStore) {s : StoreStep} {r : Read}
    (hother : ∀ c, s.Writes c → ¬ r.Covers c)
    (hseen : ∀ c c', s.Writes c → r.Covers c' → ¬ c.SeenIn c') :
    r.result (db.step s) = r.result db := by
  apply r.result_congr hdb (hdb.step s)
  intro k hk
  cases s with
  | write op logType =>
      by_contra hne
      have htouched : ∃ c, op.Writes c ∧ c.Owns k := by
        by_contra hnot
        exact hne (get_apply_of_onKeys (op.onOwn db logType) hnot db)
      -- the record was or is there, so that it is one of the store
      have hmember : IsMemberScoreKey k := by
        cases hget : db.get k with
        | some v => exact hdb.scores k v hget
        | none =>
            cases hget' : (db.step (.write op logType)).get k with
            | some v => exact (hdb.step (.write op logType)).scores k v hget'
            | none => exact absurd (hget'.trans hget.symm) hne
      obtain ⟨c, hc, howns⟩ := htouched
      rcases covers_or_seenIn howns hk hmember with hcovers | ⟨c', hcovers, hin⟩
      · exact hother c hc hcovers
      · exact hseen c c' hc hcovers hin
  | flushdb =>
      obtain ⟨c, hc⟩ := hk.exists_covers
      exact absurd hc (hother c trivial)

/-- A read answers the same after steps that write elsewhere. -/
theorem Read.result_run {r : Read} (steps : List StoreStep) : ∀ {db : Db}, db.IsStore →
    (∀ s ∈ steps, ∀ c, s.Writes c → ¬ r.Covers c) →
    (∀ s ∈ steps, ∀ c c', s.Writes c → r.Covers c' → ¬ c.SeenIn c') →
    r.result (steps.foldl Db.step db) = r.result db := by
  induction steps with
  | nil => intro db _ _ _; rfl
  | cons s steps ih =>
      intro db hdb hother hseen
      rw [List.foldl_cons, ih (hdb.step s) (fun t ht => hother t (List.mem_cons_of_mem _ ht))
        (fun t ht => hseen t (List.mem_cons_of_mem _ ht))]
      exact result_step hdb (hother s List.mem_cons_self) (hseen s List.mem_cons_self)

/-- A walk over the empty store finds nothing. -/
theorem iterator_empty (first last : Bytes) (limit : ℕ) : iterator OrderedMap.empty first last limit = [] := by
  simp [iterator, OrderedMap.after, OrderedMap.empty]

/-- The empty store answers every read with nothing. -/
theorem Read.result_empty (r : Read) : r.result OrderedMap.empty = r.nothing := by
  have hzscan : ∀ name key scoreStart scoreEnd limit,
      Ssdb.zscan OrderedMap.empty name key scoreStart scoreEnd limit = [] := by
    intro name key scoreStart scoreEnd limit
    simp only [Ssdb.zscan, ziterator, iterator_empty]
    rfl
  cases r with
  | scan first last limit => rw [result, Kv.scan, iterator_empty]; rfl
  | hscan name first last limit => rw [result, Ssdb.hscan, iterator_empty]; rfl
  | hlist first last limit => rw [result, Ssdb.hlist, iterator_empty]; rfl
  | zscan name key scoreStart scoreEnd limit => rw [result, hzscan]; rfl
  | zrange name offset limit =>
      simp only [result, Ssdb.zrange, ziterator, iterator_empty]
      simp [zIterator, nothing]
  | zrank name key =>
      simp only [result, Ssdb.zrank, ziterator, iterator_empty]
      rfl
  | zcount name scoreStart scoreEnd => rw [result, procZcount, hzscan]; rfl
  | qget name index => simp [result, Ssdb.qget, qgetUint64, OrderedMap.get_empty, nothing]
  | qslice name first last =>
      have hpointer : ∀ seq, qgetUint64 OrderedMap.empty name seq = .notFound := fun seq => rfl
      -- one of the pointers is read
      by_cases hfront : 0 ≤ first ∨ 0 ≤ last
      · simp only [result, Ssdb.qslice, hpointer, if_pos hfront]
        rfl
      · have hback : first < 0 ∨ last < 0 := by omega
        simp only [result, Ssdb.qslice, hpointer, if_neg hfront, if_pos hback]
        rfl
  | qlist first last limit => rw [result, Ssdb.qlist, iterator_empty]; rfl
  | _ => rfl

/-- A record between the bounds of a walk is returned. -/
theorem ziterator_ne_nil {db : Db} (hdb : db.IsStore) {name keyStart scoreStart scoreEnd k : Bytes}
    {v : Value} (hget : db.get k = some v)
    (hfirst : encodeZscoreKey name keyStart (if scoreStart = [] then scoreMin else scoreStart) < k)
    (hend : k ≤ encodeZscoreKey name keyLast (if scoreEnd = [] then scoreMax else scoreEnd)) :
    ziterator db name keyStart scoreStart scoreEnd 1 ≠ [] := by
  have hlast : encodeZscoreKey name keyLast (if scoreEnd = [] then scoreMax else scoreEnd) ≠ [] :=
    List.cons_ne_nil _ _
  simp only [ziterator]
  rw [iterator_eq db _ hlast]
  have hmem : (k, v) ∈ db.entries.filter (fun p =>
      encodeZscoreKey name keyStart (if scoreStart = [] then scoreMin else scoreStart) < p.1 ∧
        p.1 ≤ encodeZscoreKey name keyLast (if scoreEnd = [] then scoreMax else scoreEnd)) := by
    rw [List.mem_filter, OrderedMap.mem_entries_iff]
    exact ⟨hget, decide_eq_true ⟨hfirst, hend⟩⟩
  obtain ⟨p, rest, hcons⟩ := List.exists_cons_of_ne_nil (List.ne_nil_of_mem hmem)
  have hp := hcons ▸ List.mem_cons_self
  rw [hcons, List.take_succ_cons, List.take_zero]
  obtain ⟨hstored, hbounds⟩ := List.mem_filter.mp (hp : p ∈ _)
  obtain ⟨hlow, hhigh⟩ := of_decide_eq_true hbounds
  -- the first record in the range is one of a member, which the iterator decodes
  rw [encodeZscoreKey_eq] at hlow hhigh
  obtain ⟨c, hc, -, -⟩ := OrderedMap.between_append _ hlow hhigh
  have hhead : p.1.head? = some DataType.ZSCORE := by
    rw [hc]
    rfl
  obtain ⟨name₁, key₁, s, hfield, -, hkey⟩ :=
    hdb.scores p.1 p.2 (OrderedMap.mem_entries_iff.mp hstored) hhead
  have hdecode := decodeZscoreKey_encode hfield.name_short key₁ (str s)
  rw [← hkey] at hdecode
  simp [zIterator, hhead, hdecode]

/-- **Members of `name` are listed under `name'`**: a key that goes on where `name'` ends, with the image
of the score 0, is between the bounds of a scan. -/
theorem zscan_extended {name name' : Bytes} (h : ExtendsInto name name') :
    ∃ op : Operation, (∀ c, op.Writes c → c = .zset name) ∧
      (Read.zscan name' [] [] [] 1).result (Db.step OrderedMap.empty (.write op .sync)) ≠ .pairs [] := by
  obtain ⟨hne, hshort, s, x, hs, hx, rfl⟩ := h
  have hkey : IsShort (x ++ encodeScore 0) := by
    rw [IsShort, List.length_append, hx, length_encodeScore]
  have hkey_ne : x ++ encodeScore 0 ≠ [] := by
    intro hnil
    have hlength := congrArg List.length hnil
    rw [List.length_append, hx] at hlength
    simp at hlength
  refine ⟨.zset name (x ++ encodeScore 0) (str s), fun c hc => hc, ?_⟩
  have hstore : Db.IsStore (Db.step OrderedMap.empty (.write (.zset name (x ++ encodeScore 0) (str s)) .sync)) :=
    isStore_run [.write (.zset name (x ++ encodeScore 0) (str s)) .sync]
  -- the `ZSCORE` record of the member
  obtain ⟨content, keys, hz⟩ := Db.AllZsets.empty name
  obtain ⟨keys', hz'⟩ := hz.zsetWrites_spec hne hkey_ne hshort hkey (str s) .sync
  have hrecord := hz'.score (x ++ encodeScore 0) s hs
  rw [strtoll_str hs, Function.update_self, if_pos rfl, ← zset_writes] at hrecord
  have hlen : lenByte (name ++ scoreTail x s) = lenByte name := by
    rw [lenByte_eq_iff, List.length_append, scoreTail, List.length_append, List.length_cons, hx,
      length_encodeScore]
    omega
  have hsplit : encodeZscoreKey name (x ++ encodeScore 0) (str s) =
      scoreStart (name ++ scoreTail x s) ++ encodeScore 0 := by
    rw [encodeZscoreKey_eq, strtoll_str hs, scoreStart, hlen]
    simp [scoreTail]
  have hmin : strtoll scoreMin = -2 ^ 63 := by decide
  have hmax : strtoll scoreMax = 2 ^ 63 - 1 := by decide
  have hscan : ziterator (Db.step OrderedMap.empty (.write (.zset name (x ++ encodeScore 0) (str s)) .sync))
      (name ++ scoreTail x s) [] [] [] 1 ≠ [] := by
    apply ziterator_ne_nil hstore hrecord
    · rw [if_pos rfl, hsplit, encodeZscoreKey_eq, hmin, ← scoreStart, OrderedMap.append_lt_append_iff]
      have hscores : encodeScore (-2 ^ 63) < encodeScore 0 :=
        encodeScore_lt (by decide) (by decide) (by decide)
      have hlt := append_lt_append_of_lt hscores (by simp) [equalSign] []
      rwa [List.append_nil] at hlt
    · rw [if_pos rfl, hsplit, encodeZscoreKey_eq, hmax, ← scoreStart, OrderedMap.append_le_append_iff]
      have hscores : encodeScore 0 < encodeScore (2 ^ 63 - 1) :=
        encodeScore_lt (by decide) (by decide) (by decide)
      have hlt := append_lt_append_of_lt hscores (by simp) [] (equalSign :: keyLast)
      rw [List.append_nil] at hlt
      exact hlt.le
  intro hnil
  apply hscan
  have hscore : scanScore (Db.step OrderedMap.empty
      (.write (.zset name (x ++ encodeScore 0) (str s)) .sync)) (name ++ scoreTail x s) [] [] = [] := by
    simp [scanScore]
  have hpairs := Answer.pairs.inj hnil
  rwa [zscan, hscore] at hpairs

/-- **Containers are isolated** exactly if no sorted set that is read has the name of one that is written,
gone on like a record of it.  Take containers that are written and others that are read.  In every store
that operations reach, steps that write only the first ones leave the answer of every read about only
the second ones as it is; and in a store in which only the first ones were ever written such a read
returns nothing. -/
theorem container_isolation (written read : Container → Prop) (hdisjoint : ∀ c, written c → ¬ read c) :
    ((∀ steps command : List StoreStep, (∀ s ∈ command, ∀ c, s.Writes c → written c) →
        ∀ r : Read, (∀ c, r.Covers c → read c) →
          r.result (command.foldl Db.step (steps.foldl Db.step OrderedMap.empty)) =
            r.result (steps.foldl Db.step OrderedMap.empty)) ↔
      ∀ c c', written c → read c' → ¬ c.SeenIn c') ∧
    ((∀ steps : List StoreStep, (∀ s ∈ steps, ∀ c, s.Writes c → written c) →
        ∀ r : Read, (∀ c, r.Covers c → read c) →
          r.result (steps.foldl Db.step OrderedMap.empty) = r.nothing) ↔
      ∀ c c', written c → read c' → ¬ c.SeenIn c') := by
  -- enough: no step of the command touches what the read depends on
  have hkeep : (∀ c c', written c → read c' → ¬ c.SeenIn c') →
      ∀ steps command : List StoreStep, (∀ s ∈ command, ∀ c, s.Writes c → written c) →
        ∀ r : Read, (∀ c, r.Covers c → read c) →
          r.result (command.foldl Db.step (steps.foldl Db.step OrderedMap.empty)) =
            r.result (steps.foldl Db.step OrderedMap.empty) := by
    intro hseen steps command hcommand r hr
    apply Read.result_run command (isStore_run steps)
    · exact fun s hs c hc hcovers => hdisjoint c (hcommand s hs c hc) (hr c hcovers)
    · exact fun s hs c c' hc hcovers => hseen c c' (hcommand s hs c hc) (hr c' hcovers)
  -- necessary: a member of the one sorted set is listed under the name of the other
  have hlisted : (∀ steps : List StoreStep, (∀ s ∈ steps, ∀ c, s.Writes c → written c) →
      ∀ r : Read, (∀ c, r.Covers c → read c) →
        r.result (steps.foldl Db.step OrderedMap.empty) = r.nothing) →
      ∀ c c', written c → read c' → ¬ c.SeenIn c' := by
    intro hnothing c c' hc hc' hin
    cases c with
    | zset name =>
        cases c' with
        | zset name' =>
            obtain ⟨op, hop, hscan⟩ := zscan_extended hin
            apply hscan
            apply hnothing [.write op .sync] _ (.zscan name' [] [] [] 1)
            · rintro c rfl
              exact hc'
            · intro s hs c hwrites
              rw [List.mem_singleton.mp hs] at hwrites
              rw [hop c hwrites]
              exact hc
        | _ => cases hin
    | _ => cases hin
  refine ⟨⟨?_, hkeep⟩, hlisted, ?_⟩
  · intro hsame
    apply hlisted
    intro steps hsteps r hr
    rw [← r.result_empty]
    exact hsame [] steps hsteps r hr
  · intro hseen steps hsteps r hr
    rw [← r.result_empty]
    exact hkeep hseen [] steps hsteps r hr

/-- A sorted set and a hash of the same name. -/
theorem container_isolation_sameName :
    (∀ c, c = Container.zset (ascii "a") → ¬ c = Container.hash (ascii "a")) ∧
      (Read.hsize (ascii "a")).result (Db.step OrderedMap.empty
        (.write (.zset (ascii "a") (ascii "k") (ascii "1")) .sync)) = .number 0 := by
  have hdisjoint : ∀ c, c = Container.zset (ascii "a") → ¬ c = Container.hash (ascii "a") := by
    rintro c rfl
    decide
  have hseen : ∀ c c', c = Container.zset (ascii "a") → c' = Container.hash (ascii "a") →
      ¬ c.SeenIn c' := by
    rintro c c' rfl rfl
    exact id
  refine ⟨hdisjoint, (container_isolation _ _ hdisjoint).2.mpr hseen
    [.write (.zset (ascii "a") (ascii "k") (ascii "1")) .sync] ?_ (.hsize (ascii "a")) fun c hc => hc⟩
  intro s hs c hc
  rw [List.mem_singleton.mp hs] at hc
  exact hc

/-- 246 bytes of a key. -/
def longKeyStart : Bytes := List.replicate 246 (chr 'x')

/-- A name that goes on like the record of a member of `a` with the score 1. -/
def extendedName : Bytes := ascii "a" ++ scoreTail longKeyStart 1

/-- **A sorted set that was never written has a member**, which was written in `a`. -/
theorem zscan_sees_other_zset :
    extendedName ≠ ascii "a" ∧
      zscan OrderedMap.empty extendedName [] [] [] 10 = [] ∧
      zscan (Db.step OrderedMap.empty
        (.write (.zset (ascii "a") (longKeyStart ++ encodeScore 0) (ascii "1")) .sync))
        extendedName [] [] [] 10 = [(longKeyStart ++ encodeScore 0, ascii "1")] := by
  refine ⟨?_, ?_, ?_⟩
  · decide +kernel
  · decide +kernel
  · decide +kernel

end Ssdb
