/-
# What is encoded can be decoded

Replication and the repair of containers read names, keys, scores and numbers back from the keys of
the records and of the binlog.  A `StorageKey` is what one of the eight encodings of `t_kv.h`,
`t_hash.h`, `t_zset.h` and `t_queue.h` is applied to, and `StorageKey.Decodes` says that the matching
`decode_*` function returns it.

Every key that an operation puts into the database or into an entry of the binlog decodes, except the
items and pointers of a queue whose name has more than 255 bytes (`storage_keys_decode`): the length of
names is checked for hashes and sorted sets, and not for queues.

The entries of `qpop_front` and `qpop_back` carry the bare name, which is no storage key.
-/
import DoudizhuBackend.Ssdb.Operations

namespace Ssdb

/-! ## Storage keys -/

/-- What the key of a record is made of. -/
inductive StorageKey where
  | kv (key : Bytes)
  | hash (name key : Bytes)
  | hsize (name : Bytes)
  | zset (name key : Bytes)
  | zscore (name key : Bytes) (score : ℤ)
  | zsize (name : Bytes)
  | qitem (name : Bytes) (seq : ℕ)
  | qsize (name : Bytes)

namespace StorageKey

/-- The bytes of a key. -/
def encode : StorageKey → Bytes
  | kv key => encodeKvKey key
  | hash name key => encodeHashKey name key
  | hsize name => encodeHsizeKey name
  | zset name key => encodeZsetKey name key
  | zscore name key score => encodeZscoreKey name key (str score)
  | zsize name => encodeZsizeKey name
  | qitem name seq => encodeQitemKey name seq
  | qsize name => encodeQsizeKey name

/-- **The matching decode function returns what was encoded.** -/
def Decodes (k : StorageKey) : Prop :=
  match k with
  | kv key => decodeNameKey k.encode = some key
  | hash name key => decodeHashKey k.encode = some (name, key)
  | hsize name => decodeNameKey k.encode = some name
  | zset name key => decodeZsetKey k.encode = some (name, key)
  | zscore name key score => decodeZscoreKey k.encode = some (name, key, str score)
  | zsize name => decodeNameKey k.encode = some name
  | qitem name seq => decodeQitemKey k.encode = some (name, seq)
  | qsize name => decodeNameKey k.encode = some name

end StorageKey

/-- The key that a call puts into the database or into an entry of the binlog. -/
def Write.storageKey : Write → Option Bytes
  | .put k _ => some k
  | .delete _ => none
  | .addLog _ cmd key => if cmd = .qpopFront ∨ cmd = .qpopBack then none else some key

namespace Operation

/-- The storage keys made of the arguments of an operation. -/
def Names (op : Operation) (k : StorageKey) : Prop :=
  match op with
  | set key _ => k = .kv key
  | setnx key _ => k = .kv key
  | getset key _ => k = .kv key
  | setbit key _ _ => k = .kv key
  | incr key _ => k = .kv key
  | del key => k = .kv key
  | multiSet kvs => ∃ kv ∈ kvs, k = .kv kv.1
  | multiDel keys => ∃ key ∈ keys, k = .kv key
  | hset name key _ => k = .hash name key ∨ k = .hsize name
  | hdel name key => k = .hash name key ∨ k = .hsize name
  | hincr name key _ => k = .hash name key ∨ k = .hsize name
  | zset name key score =>
      k = .zset name key ∨ k = .zsize name ∨ k = .zscore name key (strtoll score)
  | zdel name key => k = .zset name key ∨ k = .zsize name
  | zincr name key _ =>
      k = .zset name key ∨ k = .zsize name ∨ ∃ s, IsInt64 s ∧ k = .zscore name key s
  | qpush name _ _ => k = .qsize name ∨ ∃ seq < 2 ^ 64, k = .qitem name seq
  | qpop name _ => k = .qsize name ∨ ∃ seq < 2 ^ 64, k = .qitem name seq
  | qset name _ _ => k = .qsize name ∨ ∃ seq < 2 ^ 64, k = .qitem name seq

/-- The operation puts the key into the database or into an entry of the binlog. -/
def Stores (op : Operation) (db : Db) (logType : BinlogType) (k : StorageKey) : Prop :=
  op.Names k ∧ ∃ w ∈ op.writes db logType, w.storageKey = some k.encode

end Operation

/-! ## What the operations store -/

section Stored

variable {db : Db} {name key : Bytes} {logType : BinlogType} {w : Write} {b : Bytes}

/-- A record that is put with its entry is one key. -/
theorem stored_put {k : Bytes} {v : Value} {cmd : BinlogCommand} (hcmd : cmd ≠ .qpopFront ∧ cmd ≠ .qpopBack)
    (hw : w ∈ [Write.put k v, .addLog logType cmd k]) (hb : w.storageKey = some b) : b = k := by
  simp only [List.mem_cons, List.not_mem_nil, or_false] at hw
  rcases hw with rfl | rfl
  · exact (Option.some.inj hb).symm
  · simp only [Write.storageKey, if_neg (not_or.mpr hcmd)] at hb
    exact (Option.some.inj hb).symm

/-- So is one that is deleted. -/
theorem stored_delete {k : Bytes} {cmd : BinlogCommand} (hcmd : cmd ≠ .qpopFront ∧ cmd ≠ .qpopBack)
    (hw : w ∈ [Write.delete k, .addLog logType cmd k]) (hb : w.storageKey = some b) : b = k := by
  simp only [List.mem_cons, List.not_mem_nil, or_false] at hw
  rcases hw with rfl | rfl
  · cases hb
  · simp only [Write.storageKey, if_neg (not_or.mpr hcmd)] at hb
    exact (Option.some.inj hb).symm

/-- The change of a size writes one key. -/
theorem stored_incrHsize {incr : ℤ} (hw : w ∈ incrHsize db name incr) (hb : w.storageKey = some b) :
    b = encodeHsizeKey name := by
  have hsize := onSize_incrHsize db name incr w hw
  cases w with
  | put k v => exact (Option.some.inj hb).symm.trans hsize
  | delete k => cases hb
  | addLog type cmd key =>
      unfold incrHsize at hw
      dsimp only at hw
      split at hw <;> simp at hw

/-- The keys that `hset` writes. -/
theorem stored_hsetWrites {val : Bytes} (hw : w ∈ hsetWrites db name key val logType)
    (hb : w.storageKey = some b) :
    IsField name key ∧ (b = encodeHashKey name key ∨ b = encodeHsizeKey name) := by
  by_cases hfield : IsField name key
  · refine ⟨hfield, ?_⟩
    simp only [hsetWrites, hsetOne_field hfield] at hw
    cases hold : hget db name key with
    | none =>
        rw [hold] at hw
        rcases List.mem_append.mp hw with hw | hw
        · exact Or.inl (stored_put (by decide) hw hb)
        · exact Or.inr (stored_incrHsize hw hb)
    | some old =>
        rw [hold] at hw
        simp only [lt_irrefl, if_false] at hw
        split at hw
        · exact Or.inl (stored_put (by decide) hw hb)
        · cases hw
  · simp only [hsetWrites, hsetOne_refused hfield] at hw
    cases hw

/-- The keys that `hdel` writes. -/
theorem stored_hdel (hw : w ∈ (hdel db name key logType).2) (hb : w.storageKey = some b) :
    IsShort name ∧ (b = encodeHashKey name key ∨ b = encodeHsizeKey name) := by
  by_cases hshort : IsShort name ∧ IsShort key
  · refine ⟨hshort.1, ?_⟩
    rw [hdel_short hshort.1 hshort.2] at hw
    cases hold : hget db name key with
    | none => rw [hold] at hw; cases hw
    | some old =>
        rw [hold] at hw
        rcases List.mem_append.mp (show w ∈ [Write.delete (encodeHashKey name key),
          .addLog logType .hdel (encodeHashKey name key)] ++ incrHsize db name (-1) from hw) with hw | hw
        · exact Or.inl (stored_delete (by decide) hw hb)
        · exact Or.inr (stored_incrHsize hw hb)
  · simp only [hdel, hdelOne_long hshort] at hw
    cases hw

/-- The change of a size writes one key. -/
theorem stored_incrZsize {incr : ℤ} (hw : w ∈ incrZsize db name incr) (hb : w.storageKey = some b) :
    b = encodeZsizeKey name := by
  unfold incrZsize at hw
  dsimp only at hw
  split at hw
  · rw [List.mem_singleton.mp hw] at hb
    cases hb
  · rw [List.mem_singleton.mp hw] at hb
    exact (Option.some.inj hb).symm

/-- The keys that `zset` writes. -/
theorem stored_zsetWrites {score : Bytes} (hw : w ∈ zsetWrites db name key score logType)
    (hb : w.storageKey = some b) :
    IsField name key ∧ (b = encodeZsetKey name key ∨ b = encodeZsizeKey name ∨
      b = encodeZscoreKey name key (str (strtoll score))) := by
  by_cases hvalid : name ≠ [] ∧ key ≠ [] ∧ IsShort name ∧ IsShort key
  · have hfield : IsField name key := ⟨hvalid.1, hvalid.2.1, hvalid.2.2.1, hvalid.2.2.2⟩
    refine ⟨hfield, ?_⟩
    obtain ⟨hempty, hlong⟩ := (isField_iff name key).mp hfield
    -- the records of the member, in front of which the old score may be removed
    have hput : w ∈ [Write.put (encodeZscoreKey name key (filterScore score)) (.bytes []),
        .put (encodeZsetKey name key) (.bytes (filterScore score)),
        .addLog logType .zset (encodeZsetKey name key)] →
          b = encodeZsetKey name key ∨ b = encodeZscoreKey name key (str (strtoll score)) := by
      intro hw
      rcases List.mem_cons.mp hw with rfl | hw
      · exact Or.inr (Option.some.inj hb).symm
      · exact Or.inl (stored_put (by decide) hw hb)
    have hone : w ∈ (zsetOne db name key score logType).2 →
        b = encodeZsetKey name key ∨ b = encodeZscoreKey name key (str (strtoll score)) := by
      intro hw
      simp only [zsetOne, if_neg hempty, if_neg hlong] at hw
      split at hw
      · exact hput hw
      · split at hw
        · cases hw
        · rcases List.mem_cons.mp hw with rfl | hw
          · cases hb
          · exact hput hw
    simp only [zsetWrites] at hw
    split at hw
    · rcases List.mem_append.mp hw with hw | hw
      · exact (hone hw).imp_right Or.inr
      · exact Or.inr (Or.inl (stored_incrZsize hw hb))
    · exact (hone hw).imp_right Or.inr
  · rw [zsetWrites_invalid hvalid] at hw
    cases hw

/-- The keys that `zdel` writes. -/
theorem stored_zdel (hw : w ∈ (zdel db name key logType).2) (hb : w.storageKey = some b) :
    (IsShort name ∧ IsShort key) ∧ (b = encodeZsetKey name key ∨ b = encodeZsizeKey name) := by
  by_cases hshort : IsShort name ∧ IsShort key
  · refine ⟨hshort, ?_⟩
    rw [zdel_writes hshort.1 hshort.2] at hw
    split at hw
    · cases hw
    · rename_i oldScore _
      rcases List.mem_cons.mp hw with rfl | hw
      · cases hb
      · rcases List.mem_append.mp (show w ∈ [Write.delete (encodeZsetKey name key),
          .addLog logType .zdel (encodeZsetKey name key)] ++ incrZsize db name (-1) from hw) with hw | hw
        · exact Or.inl (stored_delete (by decide) hw hb)
        · exact Or.inr (stored_incrZsize hw hb)
  · rw [zdel_long hshort] at hw
    cases hw

/-- The keys of the records of a queue, with numbers of 64 bits. -/
def IsQueueRecord (name b : Bytes) : Prop :=
  b = encodeQsizeKey name ∨ ∃ seq < 2 ^ 64, b = encodeQitemKey name seq

/-- The change of a size writes a record of the queue. -/
theorem stored_incrQsize {incr : ℤ} (hw : w ∈ (incrQsize db name incr).2)
    (hb : w.storageKey = some b) : IsQueueRecord name b := by
  unfold incrQsize at hw
  split at hw
  · cases hw
  · dsimp only at hw
    split at hw
    · simp only [List.mem_cons, List.not_mem_nil, or_false] at hw
      rcases hw with rfl | rfl | rfl <;> cases hb
    · rw [List.mem_singleton.mp hw] at hb
      exact Or.inl (Option.some.inj hb).symm

theorem qend_lt (e : QueueEnd) : e.seq < 2 ^ 64 := by cases e <;> decide

/-- The move of a pointer writes a record of the queue. -/
theorem stored_pushSeq {e : QueueEnd} {l : Lookup} (hw : w ∈ (pushSeq name e l).2)
    (hb : w.storageKey = some b) : IsQueueRecord name b := by
  unfold pushSeq at hw
  split at hw
  · rw [List.mem_singleton.mp hw] at hb
    exact Or.inr ⟨e.seq, qend_lt e, (Option.some.inj hb).symm⟩
  · simp only [List.mem_cons, List.not_mem_nil, or_false] at hw
    rcases hw with rfl | rfl
    · exact Or.inr ⟨qfrontSeq, by decide, (Option.some.inj hb).symm⟩
    · exact Or.inr ⟨qbackSeq, by decide, (Option.some.inj hb).symm⟩

theorem pushCommand_ne (e : QueueEnd) : e.pushCommand ≠ .qpopFront ∧ e.pushCommand ≠ .qpopBack := by
  cases e <;> decide

/-- The keys that a push writes. -/
theorem stored_qpush {item : Bytes} {e : QueueEnd} (hw : w ∈ (qpush db name item e logType).2)
    (hb : w.storageKey = some b) : IsQueueRecord name b := by
  simp only [qpush] at hw
  split at hw
  · cases hw
  · split at hw
    · cases hw
    · rename_i hrange
      split at hw
      · cases hw
      · have hseq : (pushSeq name e (qgetUint64 db name e.seq)).1 < 2 ^ 64 := by
          simp only [qitemMaxSeq] at hrange
          omega
        rcases List.mem_append.mp hw with hw | hw
        · exact stored_pushSeq hw hb
        · rcases List.mem_append.mp (show w ∈ [Write.put _ _, .addLog logType e.pushCommand _] ++
            (incrQsize db name 1).2 from hw) with hw | hw
          · exact Or.inr ⟨_, hseq, stored_put (pushCommand_ne e) hw hb⟩
          · exact stored_incrQsize hw hb

/-- The keys that a pop writes. -/
theorem stored_qpop {e : QueueEnd} (hw : w ∈ (qpop db name e logType).2.2)
    (hb : w.storageKey = some b) : IsQueueRecord name b := by
  unfold qpop at hw
  split at hw
  · cases hw
  · cases hw
  · split at hw
    · cases hw
    · dsimp only at hw
      split at hw
      · cases hw
      · simp only [List.mem_append, List.mem_cons] at hw
        rcases hw with rfl | rfl | hw | hw
        · cases hb
        · -- the entry of a removal carries the bare name
          cases e <;> cases hb
        · exact stored_incrQsize hw hb
        · split at hw
          · rw [List.mem_singleton.mp hw] at hb
            exact Or.inr ⟨e.seq, qend_lt e, (Option.some.inj hb).symm⟩
          · cases hw

/-- The keys that `qset` writes. -/
theorem stored_qset {index : ℤ} {item : Bytes} (hw : w ∈ (qset db name index item logType).2)
    (hb : w.storageKey = some b) : IsQueueRecord name b := by
  unfold qset at hw
  split at hw
  · cases hw
  · split at hw
    · cases hw
    · dsimp only at hw
      split at hw
      · cases hw
      · cases hw
      · refine Or.inr ⟨_, ?_, stored_put (by decide) hw hb⟩
        omega

end Stored

/-! ## What of it decodes -/

/-- A decoded name has at most 255 bytes. -/
theorem short_of_read8Data {s name rest : Bytes} (h : read8Data s = some (name, rest)) :
    IsShort name := by
  cases s with
  | nil => cases h
  | cons n t =>
      rw [read8Data] at h
      split at h
      · cases h
      · obtain ⟨rfl, -⟩ := Prod.mk.inj (Option.some.inj h)
        have hn := n.isLt
        rw [IsShort, List.length_take]
        omega

/-- A queue item decodes exactly if its name has at most 255 bytes. -/
theorem qitem_decodes_iff (name : Bytes) {seq : ℕ} (hseq : seq < 2 ^ 64) :
    (StorageKey.qitem name seq).Decodes ↔ IsShort name := by
  constructor
  · intro h
    simp only [StorageKey.Decodes, StorageKey.encode, decodeQitemKey, encodeQitemKey, skip1,
      Option.bind_eq_bind, Option.bind_some] at h
    obtain ⟨⟨name', rest⟩, hread, h⟩ := Option.bind_eq_some_iff.mp h
    obtain ⟨⟨seq', rest'⟩, -, h⟩ := Option.bind_eq_some_iff.mp h
    obtain ⟨rfl, -⟩ := Prod.mk.inj (Option.some.inj h)
    exact short_of_read8Data hread
  · intro h
    exact decodeQitemKey_encode h hseq

/-- The key of an entry by score is decoded, if the name is short. -/
theorem zscore_decodes {name key : Bytes} (hname : IsShort name) {s : ℤ} (hs : IsInt64 s) :
    (StorageKey.zscore name key s).Decodes := by
  show decodeZscoreKey (encodeZscoreKey name key (str s)) = some (name, key, str s)
  rw [decodeZscoreKey_encode hname, strtoll_str hs]

/-- The names of queue items have at most 255 bytes. -/
def StorageKey.ShortQueue (k : StorageKey) : Prop :=
  match k with
  | qitem name _ => IsShort name
  | _ => True

namespace Operation

/-- Everything that an operation stores is one of its storage keys. -/
theorem exists_stores {op : Operation} {db : Db} {logType : BinlogType} {w : Write} {b : Bytes}
    (hw : w ∈ op.writes db logType) (hb : w.storageKey = some b) :
    ∃ k, op.Stores db logType k ∧ k.encode = b := by
  -- it is enough to name the key
  have hstores : ∀ k : StorageKey, op.Names k → b = k.encode → ∃ k, op.Stores db logType k ∧ k.encode = b :=
    fun k hk heq => ⟨k, ⟨hk, w, hw, heq ▸ hb⟩, heq.symm⟩
  have hqueue : ∀ name, (∀ k, (k = .qsize name ∨ ∃ seq < 2 ^ 64, k = .qitem name seq) → op.Names k) →
      IsQueueRecord name b → ∃ k, op.Stores db logType k ∧ k.encode = b := by
    rintro name hnames (heq | ⟨seq, hseq, heq⟩)
    · exact hstores (.qsize name) (hnames _ (Or.inl rfl)) heq
    · exact hstores (.qitem name seq) (hnames _ (Or.inr ⟨seq, hseq, rfl⟩)) heq
  -- one case for each operation: what it writes, and under which keys
  cases op with
  | set key val =>
      simp only [writes, Kv.set] at hw
      split at hw
      · cases hw
      · exact hstores (.kv key) rfl (stored_put (by decide) hw hb)
  | setnx key val =>
      simp only [writes, Kv.setnx] at hw
      split at hw
      · cases hw
      · split at hw
        · cases hw
        · exact hstores (.kv key) rfl (stored_put (by decide) hw hb)
  | getset key newval =>
      simp only [writes, Kv.getset] at hw
      split at hw
      · cases hw
      · exact hstores (.kv key) rfl (stored_put (by decide) hw hb)
  | setbit key offset on =>
      simp only [writes, Kv.setbit] at hw
      split at hw
      · cases hw
      · exact hstores (.kv key) rfl (stored_put (by decide) hw hb)
  | incr key by_ =>
      simp only [writes, Kv.incr] at hw
      split at hw
      · cases hw
      · exact hstores (.kv key) rfl (stored_put (by decide) hw hb)
  | del key => exact hstores (.kv key) rfl (stored_delete (by decide) hw hb)
  | multiSet kvs =>
      simp only [writes, Kv.multiSet] at hw
      split at hw
      · cases hw
      · obtain ⟨kv, hkv, hw⟩ := List.mem_flatMap.mp hw
        exact hstores (.kv kv.1) ⟨kv, hkv, rfl⟩ (stored_put (by decide) hw hb)
  | multiDel keys =>
      obtain ⟨key, hkey, hw⟩ := List.mem_flatMap.mp hw
      exact hstores (.kv key) ⟨key, hkey, rfl⟩ (stored_delete (by decide) hw hb)
  | hset name key val =>
      simp only [writes, hset_writes] at hw
      rcases (stored_hsetWrites hw hb).2 with heq | heq
      · exact hstores (.hash name key) (Or.inl rfl) heq
      · exact hstores (.hsize name) (Or.inr rfl) heq
  | hdel name key =>
      rcases (stored_hdel hw hb).2 with heq | heq
      · exact hstores (.hash name key) (Or.inl rfl) heq
      · exact hstores (.hsize name) (Or.inr rfl) heq
  | hincr name key by_ =>
      simp only [writes, hincr_writes] at hw
      split at hw
      · cases hw
      · rcases (stored_hsetWrites hw hb).2 with heq | heq
        · exact hstores (.hash name key) (Or.inl rfl) heq
        · exact hstores (.hsize name) (Or.inr rfl) heq
  | zset name key score =>
      simp only [writes, zset_writes] at hw
      rcases (stored_zsetWrites hw hb).2 with heq | heq | heq
      · exact hstores (.zset name key) (Or.inl rfl) heq
      · exact hstores (.zsize name) (Or.inr (Or.inl rfl)) heq
      · exact hstores (.zscore name key _) (Or.inr (Or.inr rfl)) heq
  | zdel name key =>
      rcases (stored_zdel hw hb).2 with heq | heq
      · exact hstores (.zset name key) (Or.inl rfl) heq
      · exact hstores (.zsize name) (Or.inr rfl) heq
  | zincr name key by_ =>
      simp only [writes, zincr_writes] at hw
      rcases (stored_zsetWrites hw hb).2 with heq | heq | heq
      · exact hstores (.zset name key) (Or.inl rfl) heq
      · exact hstores (.zsize name) (Or.inr (Or.inl rfl)) heq
      · exact hstores (.zscore name key _) (Or.inr (Or.inr ⟨_, isInt64_strtoll _, rfl⟩)) heq
  | qpush name item e => exact hqueue name (fun k hk => hk) (stored_qpush hw hb)
  | qpop name e => exact hqueue name (fun k hk => hk) (stored_qpop hw hb)
  | qset name index item => exact hqueue name (fun k hk => hk) (stored_qset hw hb)

/-- The names and keys of hashes and sorted sets that are stored are short. -/
theorem decodes_of_hash {db : Db} {logType : BinlogType} {op : Operation} {name key : Bytes}
    (hk : op.Stores db logType (.hash name key)) : (StorageKey.hash name key).Decodes := by
  have hshort : IsShort name → (StorageKey.hash name key).Decodes := fun h => decodeHashKey_encode h key
  obtain ⟨hnames, w, hw, hb⟩ := hk
  cases op with
  | hset name' key' val =>
      simp only [Names, StorageKey.hash.injEq, reduceCtorEq, or_false] at hnames
      obtain ⟨rfl, rfl⟩ := hnames
      simp only [writes, hset_writes] at hw
      exact hshort (stored_hsetWrites hw hb).1.name_short
  | hdel name' key' =>
      simp only [Names, StorageKey.hash.injEq, reduceCtorEq, or_false] at hnames
      obtain ⟨rfl, rfl⟩ := hnames
      exact hshort (stored_hdel hw hb).1
  | hincr name' key' by_ =>
      simp only [Names, StorageKey.hash.injEq, reduceCtorEq, or_false] at hnames
      obtain ⟨rfl, rfl⟩ := hnames
      simp only [writes, hincr_writes] at hw
      split at hw
      · cases hw
      · exact hshort (stored_hsetWrites hw hb).1.name_short
  | _ => simp [Names] at hnames

/-- The operations that store records of members have checked the name and the key. -/
theorem short_of_zset {db : Db} {logType : BinlogType} {op : Operation} {name key : Bytes}
    (hk : op.Stores db logType (.zset name key)) : IsShort name ∧ IsShort key := by
  obtain ⟨hnames, w, hw, hb⟩ := hk
  cases op with
  | zset name' key' score =>
      simp only [Names, StorageKey.zset.injEq, reduceCtorEq, or_false] at hnames
      obtain ⟨rfl, rfl⟩ := hnames
      simp only [writes, zset_writes] at hw
      have hfield := (stored_zsetWrites hw hb).1
      exact ⟨hfield.name_short, hfield.key_short⟩
  | zdel name' key' =>
      simp only [Names, StorageKey.zset.injEq, reduceCtorEq, or_false] at hnames
      obtain ⟨rfl, rfl⟩ := hnames
      exact (stored_zdel hw hb).1
  | zincr name' key' by_ =>
      simp only [Names, StorageKey.zset.injEq, reduceCtorEq, and_false, exists_const, or_false] at hnames
      obtain ⟨rfl, rfl⟩ := hnames
      simp only [writes, zincr_writes] at hw
      have hfield := (stored_zsetWrites hw hb).1
      exact ⟨hfield.name_short, hfield.key_short⟩
  | _ => simp [Names] at hnames

/-- An entry by score that is written has a short name and a score of 64 bits. -/
theorem short_of_zscore {db : Db} {logType : BinlogType} {op : Operation} {name key : Bytes} {s : ℤ}
    (hk : op.Stores db logType (.zscore name key s)) : IsShort name ∧ IsInt64 s := by
  obtain ⟨hnames, w, hw, hb⟩ := hk
  cases op with
  | zset name' key' score =>
      simp only [Names, StorageKey.zscore.injEq, reduceCtorEq, false_or] at hnames
      obtain ⟨rfl, rfl, rfl⟩ := hnames
      simp only [writes, zset_writes] at hw
      exact ⟨(stored_zsetWrites hw hb).1.name_short, isInt64_strtoll score⟩
  | zincr name' key' by_ =>
      simp only [Names, reduceCtorEq, false_or] at hnames
      obtain ⟨s', hs', heq⟩ := hnames
      obtain ⟨rfl, rfl, rfl⟩ := StorageKey.zscore.inj heq
      simp only [writes, zincr_writes] at hw
      exact ⟨(stored_zsetWrites hw hb).1.name_short, hs'⟩
  | _ => simp [Names] at hnames

/-- An item that is written has a number of 64 bits. -/
theorem lt_of_qitem {op : Operation} {name : Bytes} {seq : ℕ} (hk : op.Names (.qitem name seq)) :
    seq < 2 ^ 64 := by
  have hqueue : ∀ name', (StorageKey.qitem name seq = .qsize name' ∨
      ∃ seq' < 2 ^ 64, StorageKey.qitem name seq = .qitem name' seq') → seq < 2 ^ 64 := by
    rintro name' (heq | ⟨seq', hseq', heq⟩)
    · cases heq
    · rw [(StorageKey.qitem.inj heq).2]
      exact hseq'
  cases op with
  | qpush name' item e => exact hqueue name' hk
  | qpop name' e => exact hqueue name' hk
  | qset name' index item => exact hqueue name' hk
  | _ => simp [Names] at hk

end Operation

/-- **Keys decode to what was encoded**, except those of queue items and pointers with a name of more
than 255 bytes: every key that an operation puts into the database or into an entry of the binlog is
the encoding of one of its storage keys, and such a storage key decodes exactly if it is not one of
these. -/
theorem storage_keys_decode (db : Db) (op : Operation) (logType : BinlogType) :
    (∀ w ∈ op.writes db logType, ∀ b, w.storageKey = some b →
      ∃ k, op.Stores db logType k ∧ k.encode = b) ∧
    ∀ k, op.Stores db logType k → (k.Decodes ↔ k.ShortQueue) := by
  refine ⟨fun w hw b hb => Operation.exists_stores hw hb, ?_⟩
  intro k hk
  cases k with
  | kv key => exact ⟨fun _ => trivial, fun _ => rfl⟩
  | hash name key => exact ⟨fun _ => trivial, fun _ => Operation.decodes_of_hash hk⟩
  | hsize name => exact ⟨fun _ => trivial, fun _ => rfl⟩
  | zset name key =>
      obtain ⟨hname, hkey⟩ := Operation.short_of_zset hk
      exact ⟨fun _ => trivial, fun _ => decodeZsetKey_encode hname hkey⟩
  | zscore name key s =>
      obtain ⟨hname, hs⟩ := Operation.short_of_zscore hk
      exact ⟨fun _ => trivial, fun _ => zscore_decodes hname hs⟩
  | zsize name => exact ⟨fun _ => trivial, fun _ => rfl⟩
  | qitem name seq => exact qitem_decodes_iff name (Operation.lt_of_qitem hk.1)
  | qsize name => exact ⟨fun _ => trivial, fun _ => rfl⟩

/-- A queue name of 256 bytes. -/
def longName : Bytes := List.replicate 256 0

/-- The item is stored under a key that decodes to another queue. -/
theorem long_queue_not_decoded :
    (Operation.qpush longName (ascii "x") .back).Stores OrderedMap.empty .sync
        (.qitem longName qitemSeqInit) ∧
      ¬ (StorageKey.qitem longName qitemSeqInit).Decodes := by
  constructor
  · refine ⟨Or.inr ⟨qitemSeqInit, by decide, rfl⟩,
      .put (encodeQitemKey longName qitemSeqInit) (.bytes (ascii "x")), ?_, rfl⟩
    have hqueue := Db.isQueue_empty longName 0
    have hseq : pushSeq longName .back (qgetUint64 OrderedMap.empty longName QueueEnd.back.seq) =
        (qitemSeqInit, [.put (encodeQitemKey longName qfrontSeq) (.int qitemSeqInit),
          .put (encodeQitemKey longName qbackSeq) (.int qitemSeqInit)]) := rfl
    simp only [Operation.writes]
    rw [hqueue.qpush_eq hseq (by decide) (by decide)]
    simp
  · rw [qitem_decodes_iff longName (by decide), IsShort, longName, List.length_replicate]
    decide

end Ssdb
