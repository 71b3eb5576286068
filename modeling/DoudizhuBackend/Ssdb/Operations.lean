/-
# The write operations of the server

The methods of `ssdb-master/src/ssdb/ssdb.h` that write: each is one transaction, on key-value pairs,
hashes, sorted sets or queues.  The commands of `proc_*.cpp`, the expiration handler and the slave
call them one after another, so that whatever every operation keeps holds in every store that they
reach.  `zfix` and `qfix`, which mend records that do not fit together, and the writing of a queue
item under a number that a master chose are not among them.

`Db.IsStore` says that the records of all containers fit together, and `isStore_run` that they always
do.  `Ssdb/Repairs.lean` adds `zfix` and `qfix` to the steps, and says when this still holds.
-/
import DoudizhuBackend.Ssdb.Counters
import DoudizhuBackend.Ssdb.QueueCommands
import DoudizhuBackend.Ssdb.ZsetScan

namespace Ssdb

/-! ## More operations on key-value pairs -/

namespace Kv

/-- `setnx`. -/
def setnx (db : Db) (key val : Bytes) (logType : BinlogType) : ℤ × List Write :=
  if key = [] then (0, [])
  else if (get db key).isSome then (0, [])
  else (1, [.put (encodeKvKey key) (.bytes val), .addLog logType .kset (encodeKvKey key)])

/-- `getset`: whether there was a value, the value, and the calls. -/
def getset (db : Db) (key newval : Bytes) (logType : BinlogType) : ℤ × Option Bytes × List Write :=
  if key = [] then (0, none, [])
  else
    (if (get db key).isSome then 1 else 0, get db key,
      [.put (encodeKvKey key) (.bytes newval), .addLog logType .kset (encodeKvKey key)])

/-- One bit of a byte set or cleared. -/
def withBit (b : Byte) (bit : ℕ) (on : Bool) : Byte :=
  if on then Fin.ofNat 256 (b.val ||| 2 ^ bit) else Fin.ofNat 256 (b.val &&& (255 - 2 ^ bit))

/-- The value of `setbit`; one that is too short is filled with zero bytes. -/
def withBitAt (val : Bytes) (offset : ℕ) (on : Bool) : Bytes :=
  (val ++ List.replicate (offset / 8 + 1 - val.length) 0).modify (offset / 8) fun b =>
    withBit b (offset % 8) on

/-- `setbit`; the result is the old bit in its place. -/
def setbit (db : Db) (key : Bytes) (offset : ℕ) (on : Bool) (logType : BinlogType) :
    ℤ × List Write :=
  if key = [] then (0, [])
  else
    let val := (get db key).getD []
    ((((val[offset / 8]?).getD 0).val &&& 2 ^ (offset % 8) : ℕ),
      [.put (encodeKvKey key) (.bytes (withBitAt val offset on)),
        .addLog logType .kset (encodeKvKey key)])

end Kv

/-! ## Operations -/

/-- A write operation with its arguments; numbers are those read from a request. -/
inductive Operation where
  | set (key val : Bytes)
  | setnx (key val : Bytes)
  | getset (key newval : Bytes)
  | setbit (key : Bytes) (offset : ℕ) (on : Bool)
  | incr (key : Bytes) (by_ : ℤ)
  | del (key : Bytes)
  | multiSet (kvs : List (Bytes × Bytes))
  | multiDel (keys : List Bytes)
  | hset (name key val : Bytes)
  | hdel (name key : Bytes)
  | hincr (name key : Bytes) (by_ : ℤ)
  | zset (name key score : Bytes)
  | zdel (name key : Bytes)
  | zincr (name key : Bytes) (by_ : ℤ)
  | qpush (name item : Bytes) (e : QueueEnd)
  | qpop (name : Bytes) (e : QueueEnd)
  | qset (name : Bytes) (index : ℤ) (item : Bytes)

namespace Operation

/-- The calls that the operation commits. -/
def writes (db : Db) (logType : BinlogType) : Operation → List Write
  | set key val => (Kv.set key val logType).2
  | setnx key val => (Kv.setnx db key val logType).2
  | getset key newval => (Kv.getset db key newval logType).2.2
  | setbit key offset on => (Kv.setbit db key offset on logType).2
  | incr key by_ => (Kv.incr db key by_ logType).2.2
  | del key => (Kv.del key logType).2
  | multiSet kvs => (Kv.multiSet kvs logType).2
  | multiDel keys => (Kv.multiDel keys logType).2
  | hset name key val => (Ssdb.hset db name key val logType).2
  | hdel name key => (Ssdb.hdel db name key logType).2
  | hincr name key by_ => (Ssdb.hincr db name key by_ logType).2.2
  | zset name key score => (Ssdb.zset db name key score logType).2
  | zdel name key => (Ssdb.zdel db name key logType).2
  | zincr name key by_ => (Ssdb.zincr db name key by_ logType).2.2
  | qpush name item e => (Ssdb.qpush db name item e logType).2
  | qpop name e => (Ssdb.qpop db name e logType).2.2
  | qset name index item => (Ssdb.qset db name index item logType).2

end Operation

/-- A step of the store: an operation, or `flushdb`, which removes every record. -/
inductive StoreStep where
  | write (op : Operation) (logType : BinlogType)
  | flushdb

/-- The store after a step. -/
def Db.step (db : Db) : StoreStep → Db
  | .write op logType => db.apply (op.writes db logType)
  | .flushdb => OrderedMap.empty

/-! ## Families of records -/

/-- The kinds of containers. -/
inductive Family where
  | kv | hash | zset | queue
  deriving DecidableEq

/-- The keys of the records of a family. -/
def Family.Holds (f : Family) (k : Bytes) : Prop :=
  match f with
  | kv => k.head? = some DataType.KV
  | hash => k.head? = some DataType.HASH ∨ k.head? = some DataType.HSIZE
  | zset => k.head? = some DataType.ZSET ∨ k.head? = some DataType.ZSCORE ∨
      k.head? = some DataType.ZSIZE
  | queue => k.head? = some DataType.QUEUE ∨ k.head? = some DataType.QSIZE

/-- The family of a first byte. -/
def familyOf (type : Byte) : Option Family :=
  if type = DataType.KV then some .kv
  else if type = DataType.HASH ∨ type = DataType.HSIZE then some .hash
  else if type = DataType.ZSET ∨ type = DataType.ZSCORE ∨ type = DataType.ZSIZE then some .zset
  else if type = DataType.QUEUE ∨ type = DataType.QSIZE then some .queue
  else none

/-- The first byte of a record tells its family. -/
theorem Family.familyOf_eq {f : Family} {k : Bytes} (h : f.Holds k) :
    k.head?.bind familyOf = some f := by
  cases f with
  | kv => rw [show k.head? = _ from h]; decide
  | hash => rcases h with h | h <;> rw [h] <;> decide
  | zset => rcases h with h | h | h <;> rw [h] <;> decide
  | queue => rcases h with h | h <;> rw [h] <;> decide

/-- The families share no record. -/
theorem Family.eq_of_holds {f g : Family} {k : Bytes} (hf : f.Holds k) (hg : g.Holds k) : f = g :=
  Option.some.inj ((Family.familyOf_eq hf).symm.trans (Family.familyOf_eq hg))

/-- The family that an operation writes. -/
def Operation.family : Operation → Family
  | set .. => .kv
  | setnx .. => .kv
  | getset .. => .kv
  | setbit .. => .kv
  | incr .. => .kv
  | del .. => .kv
  | multiSet .. => .kv
  | multiDel .. => .kv
  | hset .. => .hash
  | hdel .. => .hash
  | hincr .. => .hash
  | zset .. => .zset
  | zdel .. => .zset
  | zincr .. => .zset
  | qpush .. => .queue
  | qpop .. => .queue
  | qset .. => .queue

/-- Writes to some keys are writes to more. -/
theorem Write.OnKeys.mono {P Q : Bytes → Prop} (hPQ : ∀ k, P k → Q k) {w : Write}
    (hw : w.OnKeys P) : w.OnKeys Q := by
  cases w with
  | put k v => exact hPQ k hw
  | delete k => exact hPQ k hw
  | addLog type cmd key => trivial

/-- A value with its entry is a write of a pair. -/
theorem Kv.onKeys_put (key val : Bytes) (logType : BinlogType) :
    ∀ w ∈ [Write.put (encodeKvKey key) (.bytes val), .addLog logType .kset (encodeKvKey key)],
      w.OnKeys Kv.IsKey := by
  intro w hw
  simp only [List.mem_cons, List.not_mem_nil, or_false] at hw
  rcases hw with rfl | rfl
  · rfl
  · trivial

/-- The records of a field are of the family of hashes. -/
theorem holds_of_isFieldKey {name key k : Bytes} (h : IsFieldKey name key k) :
    Family.hash.Holds k := by
  rcases h with rfl | rfl
  · exact Or.inl rfl
  · exact Or.inr rfl

/-- Those of a member are of the family of sorted sets. -/
theorem holds_of_isMemberKey {name key k : Bytes} (h : IsMemberKey name key k) :
    Family.zset.Holds k := by
  rcases h with rfl | rfl | ⟨score, rfl⟩
  · exact Or.inl rfl
  · exact Or.inr (Or.inr rfl)
  · exact Or.inr (Or.inl rfl)

/-- Those of a queue are of the family of queues. -/
theorem holds_of_isQueueKey {name k : Bytes} (h : IsQueueKey name k) : Family.queue.Holds k := by
  rcases h with rfl | ⟨seq, rfl⟩
  · exact Or.inr rfl
  · exact Or.inl rfl

/-- `hincr` writes to its field only. -/
theorem onField_hincr (db : Db) (name key : Bytes) (by_ : ℤ) (logType : BinlogType) :
    ∀ w ∈ (hincr db name key by_ logType).2.2, w.OnKeys (IsFieldKey name key) := by
  intro w hw
  rw [hincr_writes] at hw
  split at hw
  · cases hw
  · exact onField_hsetWrites db name key _ logType w hw

/-- An operation writes records of its family. -/
theorem Operation.onFamily (op : Operation) (db : Db) (logType : BinlogType) :
    ∀ w ∈ op.writes db logType, w.OnKeys op.family.Holds := by
  intro w hw
  cases op with
  | set key val => exact Kv.onKeys_set key val logType w hw
  | setnx key val =>
      simp only [writes, Kv.setnx] at hw
      split at hw
      · cases hw
      · split at hw
        · cases hw
        · exact Kv.onKeys_put key val logType w hw
  | getset key newval =>
      simp only [writes, Kv.getset] at hw
      split at hw
      · cases hw
      · exact Kv.onKeys_put key newval logType w hw
  | setbit key offset on =>
      simp only [writes, Kv.setbit] at hw
      split at hw
      · cases hw
      · exact Kv.onKeys_put key _ logType w hw
  | incr key by_ =>
      simp only [writes, Kv.incr] at hw
      split at hw
      · cases hw
      · exact Kv.onKeys_put key _ logType w hw
  | del key => exact Kv.onKeys_del key logType w hw
  | multiSet kvs => exact Kv.onKeys_multiSet kvs logType w hw
  | multiDel keys => exact Kv.onKeys_multiDel keys logType w hw
  | hset name key val =>
      simp only [writes, hset_writes] at hw
      exact (onField_hsetWrites db name key val logType w hw).mono fun k => holds_of_isFieldKey
  | hdel name key => exact (onField_hdel db name key logType w hw).mono fun k => holds_of_isFieldKey
  | hincr name key by_ =>
      exact (onField_hincr db name key by_ logType w hw).mono fun k => holds_of_isFieldKey
  | zset name key score =>
      simp only [writes, zset_writes] at hw
      exact (onMember_zsetWrites db name key score logType w hw).mono fun k => holds_of_isMemberKey
  | zdel name key => exact (onMember_zdel db name key logType w hw).mono fun k => holds_of_isMemberKey
  | zincr name key by_ =>
      simp only [writes, zincr_writes] at hw
      exact (onMember_zsetWrites db name key _ logType w hw).mono fun k => holds_of_isMemberKey
  | qpush name item e =>
      exact (onQueue_qpush db name item e logType w hw).mono fun k => holds_of_isQueueKey
  | qpop name e => exact (onQueue_qpop db name e logType w hw).mono fun k => holds_of_isQueueKey
  | qset name index item =>
      exact (onQueue_qset db name index item logType w hw).mono fun k => holds_of_isQueueKey

/-- What an operation of another family leaves. -/
theorem Operation.get_apply {op : Operation} {f : Family} (hf : op.family ≠ f) (db : Db)
    (logType : BinlogType) {k : Bytes} (hk : f.Holds k) :
    (db.apply (op.writes db logType)).get k = db.get k := by
  apply get_apply_of_onKeys (op.onFamily db logType)
  exact fun hk' => hf (Family.eq_of_holds hk' hk)

/-! ## The records fit together -/

/-- The key of a `ZSCORE` record is that of a member with a name and a key that `zset` accepts. -/
def IsMemberScoreKey (k : Bytes) : Prop :=
  k.head? = some DataType.ZSCORE →
    ∃ name key s, IsField name key ∧ IsInt64 s ∧ k = encodeZscoreKey name key (str s)

/-- **The records of all containers fit together.** -/
structure Db.IsStore (db : Db) : Prop where
  hashes : db.AllHashes
  zsets : db.AllZsets
  scores : Db.Keys IsMemberScoreKey db
  queues : db.AllQueues

/-- Whether hashes fit together depends on their own records. -/
theorem Db.AllHashes.congr {db db' : Db} (h : db.AllHashes)
    (hget : ∀ k, Family.hash.Holds k → db'.get k = db.get k) : db'.AllHashes where
  hashes := by
    intro name
    obtain ⟨content, keys, hh⟩ := h.hashes name
    refine ⟨content, keys, hh.congr ?_ ?_⟩
    · exact fun key => hget _ (Or.inl rfl)
    · exact hget _ (Or.inr rfl)
  keys := by
    intro k v hk hhead
    rw [hget k (Or.inl hhead)] at hk
    exact h.keys k v hk hhead

/-- So it is with sorted sets. -/
theorem Db.AllZsets.congr {db db' : Db} (h : db.AllZsets)
    (hget : ∀ k, Family.zset.Holds k → db'.get k = db.get k) : db'.AllZsets := by
  intro name
  obtain ⟨content, keys, hz⟩ := h name
  refine ⟨content, keys, hz.congr ?_ ?_ ?_⟩
  · exact fun key => hget _ (Or.inl rfl)
  · exact fun key score => hget _ (Or.inr (Or.inl rfl))
  · exact hget _ (Or.inr (Or.inr rfl))

/-- And with queues. -/
theorem Db.AllQueues.congr {db db' : Db} (h : db.AllQueues)
    (hget : ∀ k, Family.queue.Holds k → db'.get k = db.get k) : db'.AllQueues := by
  intro name
  obtain ⟨front, items, hq⟩ := h name
  refine ⟨front, items, hq.congr ?_ ?_⟩
  · exact hget _ (Or.inr rfl)
  · exact fun seq _ => hget _ (Or.inl rfl)

/-- A push, a removal or a replacement keeps the queue a list. -/
theorem Db.AllQueues.write {db : Db} (h : db.AllQueues) (op : Operation) (logType : BinlogType) :
    Db.AllQueues (db.apply (op.writes db logType)) := by
  by_cases hf : op.family = .queue
  · -- one queue is written, the others are not
    have hone : ∀ (name : Bytes) {ws : List Write}, (∀ w ∈ ws, w.OnKeys (IsQueueKey name)) →
        (∀ front items, db.IsQueue name front items →
          ∃ front' items', Db.IsQueue (db.apply ws) name front' items') →
        Db.AllQueues (db.apply ws) := by
      intro name ws hws hname name'
      obtain ⟨front, items, hq⟩ := h name'
      rcases eq_or_ne name' name with rfl | hne
      · exact hname front items hq
      · exact ⟨front, items, hq.apply_other hne hws⟩
    cases op with
    | qpush name item e =>
        apply hone name (onQueue_qpush db name item e logType)
        intro front items hq
        rcases Nat.eq_zero_or_pos (room db name e) with hfull | hroom
        · exact ⟨front, items, by rw [hq.qpush_full hfull]; exact hq⟩
        · exact ⟨_, _, (hq.qpush_spec hroom item logType).2⟩
    | qpop name e =>
        apply hone name (onQueue_qpop db name e logType)
        intro front items hq
        rcases eq_or_ne items [] with rfl | hne
        · exact ⟨front, [], by rw [hq.qpop_nil]; exact hq⟩
        · exact ⟨_, _, (hq.qpop_spec e hne logType).2.2⟩
    | qset name index item =>
        apply hone name (onQueue_qset db name index item logType)
        intro front items hq
        by_cases hindex : -(items.length : ℤ) ≤ index ∧ index < items.length
        · exact ⟨front, _, hq.qset_spec hindex item logType⟩
        · exact ⟨front, items, by rw [hq.qset_out hindex]; exact hq⟩
    | _ => cases hf
  · exact h.congr fun k hk => Operation.get_apply hf db logType hk

/-- Every operation keeps the hashes together. -/
theorem Db.AllHashes.write {db : Db} (h : db.AllHashes) (op : Operation) (logType : BinlogType) :
    Db.AllHashes (db.apply (op.writes db logType)) := by
  by_cases hf : op.family = .hash
  · cases op with
    | hset name key val => exact h.hset name key val logType
    | hdel name key => exact h.hdel name key logType
    | hincr name key by_ => exact h.hincr name key by_ logType
    | _ => cases hf
  · exact h.congr fun k hk => Operation.get_apply hf db logType hk

/-- It keeps the sorted sets together. -/
theorem Db.AllZsets.write {db : Db} (h : db.AllZsets) (op : Operation) (logType : BinlogType) :
    Db.AllZsets (db.apply (op.writes db logType)) := by
  by_cases hf : op.family = .zset
  · cases op with
    | zset name key score =>
        simp only [Operation.writes, zset_writes]
        exact h.zsetWrites name key score logType
    | zdel name key => exact h.zdel name key logType
    | zincr name key by_ =>
        simp only [Operation.writes, zincr_writes]
        exact h.zsetWrites name key _ logType
    | _ => cases hf
  · exact h.congr fun k hk => Operation.get_apply hf db logType hk

/-- The change of a size puts no entry by score. -/
theorem putsMembers_incrZsize (db : Db) (name : Bytes) (incr : ℤ) :
    ∀ w ∈ incrZsize db name incr, w.Puts IsMemberScoreKey := by
  intro w hw
  unfold incrZsize at hw
  dsimp only at hw
  split at hw
  · rw [List.mem_singleton.mp hw]
    trivial
  · rw [List.mem_singleton.mp hw]
    exact fun hhead => absurd hhead (zsizeKey_head name)

/-- `zset` puts no other `ZSCORE` record than that of its member. -/
theorem putsMembers_zsetWrites (db : Db) (name key score : Bytes) (logType : BinlogType) :
    ∀ w ∈ zsetWrites db name key score logType, w.Puts IsMemberScoreKey := by
  intro w hw
  by_cases hvalid : name ≠ [] ∧ key ≠ [] ∧ IsShort name ∧ IsShort key
  · have hfield : IsField name key := ⟨hvalid.1, hvalid.2.1, hvalid.2.2.1, hvalid.2.2.2⟩
    have hone : w ∈ (zsetOne db name key score logType).2 → w.Puts IsMemberScoreKey := by
      intro hw
      obtain ⟨hempty, hlong⟩ := (isField_iff name key).mp hfield
      have hscore : IsMemberScoreKey (encodeZscoreKey name key (filterScore score)) :=
        fun _ => ⟨name, key, strtoll score, hfield, isInt64_strtoll score, rfl⟩
      simp only [zsetOne, if_neg hempty, if_neg hlong] at hw
      split at hw
      · simp only [List.mem_cons, List.not_mem_nil, or_false] at hw
        rcases hw with rfl | rfl | rfl
        · exact hscore
        · exact fun hhead => absurd hhead (zsetKey_head name key)
        · trivial
      · split at hw
        · cases hw
        · simp only [List.mem_cons, List.not_mem_nil, or_false] at hw
          rcases hw with rfl | rfl | rfl | rfl
          · trivial
          · exact hscore
          · exact fun hhead => absurd hhead (zsetKey_head name key)
          · trivial
    simp only [zsetWrites] at hw
    split at hw
    · rcases List.mem_append.mp hw with hw | hw
      · exact hone hw
      · exact putsMembers_incrZsize db name _ w hw
    · exact hone hw
  · rw [zsetWrites_invalid hvalid] at hw
    cases hw

/-- `zdel` puts no entry by score. -/
theorem putsMembers_zdel (db : Db) (name key : Bytes) (logType : BinlogType) :
    ∀ w ∈ (zdel db name key logType).2, w.Puts IsMemberScoreKey := by
  intro w hw
  by_cases hshort : IsShort name ∧ IsShort key
  · rw [zdel_writes hshort.1 hshort.2] at hw
    split at hw
    · cases hw
    · simp only [List.mem_cons] at hw
      rcases hw with rfl | rfl | rfl | hw
      · trivial
      · trivial
      · trivial
      · exact putsMembers_incrZsize db name (-1) w hw
  · rw [zdel_long hshort] at hw
    cases hw

/-- The entries by score that an operation puts are those of members. -/
theorem Operation.putsMembers (op : Operation) (db : Db) (logType : BinlogType) :
    ∀ w ∈ op.writes db logType, w.Puts IsMemberScoreKey := by
  intro w hw
  by_cases hf : op.family = .zset
  · cases op with
    | zset name key score =>
        simp only [writes, zset_writes] at hw
        exact putsMembers_zsetWrites db name key score logType w hw
    | zdel name key => exact putsMembers_zdel db name key logType w hw
    | zincr name key by_ =>
        simp only [writes, zincr_writes] at hw
        exact putsMembers_zsetWrites db name key _ logType w hw
    | _ => cases hf
  · refine (op.onFamily db logType w hw).puts ?_
    intro k hk hhead
    exact absurd (Family.eq_of_holds hk (show Family.zset.Holds k from Or.inr (Or.inl hhead))) hf

/-- Every operation keeps the records together. -/
theorem Db.IsStore.step {db : Db} (h : db.IsStore) (s : StoreStep) : Db.IsStore (db.step s) := by
  cases s with
  | write op logType =>
      constructor
      case hashes => exact h.hashes.write op logType
      case zsets => exact h.zsets.write op logType
      case scores => exact h.scores.apply (op.putsMembers db logType)
      case queues => exact h.queues.write op logType
  | flushdb =>
      exact ⟨.empty, .empty, .empty, fun name => ⟨0, [], Db.isQueue_empty name 0⟩⟩

/-- **In every store that the operations reach, the records of all containers fit together.** -/
theorem isStore_run (steps : List StoreStep) : (steps.foldl Db.step OrderedMap.empty).IsStore := by
  apply List.foldlRecOn (motive := Db.IsStore) steps
  · exact ⟨.empty, .empty, .empty, fun name => ⟨0, [], Db.isQueue_empty name 0⟩⟩
  · exact fun db h s _ => h.step s

end Ssdb
