/-
# Key-value pairs

`ssdb-master/src/ssdb/t_kv.cpp`: the operations on single values.  An empty key is refused by `set`
and `multi_set`, which then report 0 and commit nothing.
-/
import DoudizhuBackend.Ssdb.Iterator

namespace Ssdb

namespace Kv

/-- `get`. -/
def get (db : Db) (key : Bytes) : Option Bytes := (db.get (encodeKvKey key)).map Value.image

/-- `set`; an empty key is ignored. -/
def set (key val : Bytes) (logType : BinlogType) : ℤ × List Write :=
  if key = [] then (0, [])
  else (1, [.put (encodeKvKey key) (.bytes val), .addLog logType .kset (encodeKvKey key)])

/-- `del`, which does not look whether there is a value. -/
def del (key : Bytes) (logType : BinlogType) : ℤ × List Write :=
  (1, [.delete (encodeKvKey key), .addLog logType .kdel (encodeKvKey key)])

/-- `multi_set`; an empty key ends the transaction without a commit. -/
def multiSet (kvs : List (Bytes × Bytes)) (logType : BinlogType) : ℤ × List Write :=
  if ∃ kv ∈ kvs, kv.1 = [] then (0, [])
  else
    (kvs.length, kvs.flatMap fun kv =>
      [.put (encodeKvKey kv.1) (.bytes kv.2), .addLog logType .kset (encodeKvKey kv.1)])

/-- `multi_del`. -/
def multiDel (keys : List Bytes) (logType : BinlogType) : ℤ × List Write :=
  (keys.length, keys.flatMap fun key =>
    [.delete (encodeKvKey key), .addLog logType .kdel (encodeKvKey key)])

/-- `scan`: the pairs behind `first`, up to `last`; an empty bound is open. -/
def scan (db : Db) (first last : Bytes) (limit : ℕ) : List (Bytes × Bytes) :=
  kIterator (iterator db (encodeKvKey first) (if last = [] then [] else encodeKvKey last) limit)

end Kv

/-! ## What the operations touch -/

/-- Two pairs do not share a record. -/
theorem encodeKvKey_inj {key key' : Bytes} (h : encodeKvKey key = encodeKvKey key') : key = key' :=
  (List.cons.inj h).2

namespace Kv

/-- The keys of key-value pairs. -/
def IsKey (k : Bytes) : Prop := k.head? = some DataType.KV

/-- `set` writes pairs only. -/
theorem onKeys_set (key val : Bytes) (logType : BinlogType) :
    ∀ w ∈ (set key val logType).2, w.OnKeys IsKey := by
  intro w hw
  unfold set at hw
  split at hw
  · cases hw
  · simp only [List.mem_cons, List.not_mem_nil, or_false] at hw
    rcases hw with rfl | rfl
    · rfl
    · trivial

/-- `del` writes pairs only. -/
theorem onKeys_del (key : Bytes) (logType : BinlogType) :
    ∀ w ∈ (del key logType).2, w.OnKeys IsKey := by
  intro w hw
  simp only [del, List.mem_cons, List.not_mem_nil, or_false] at hw
  rcases hw with rfl | rfl
  · rfl
  · trivial

/-- `multi_set` writes pairs only. -/
theorem onKeys_multiSet (kvs : List (Bytes × Bytes)) (logType : BinlogType) :
    ∀ w ∈ (multiSet kvs logType).2, w.OnKeys IsKey := by
  intro w hw
  unfold multiSet at hw
  split at hw
  · cases hw
  · obtain ⟨kv, -, hw⟩ := List.mem_flatMap.mp hw
    simp only [List.mem_cons, List.not_mem_nil, or_false] at hw
    rcases hw with rfl | rfl
    · rfl
    · trivial

/-- `multi_del` writes pairs only. -/
theorem onKeys_multiDel (keys : List Bytes) (logType : BinlogType) :
    ∀ w ∈ (multiDel keys logType).2, w.OnKeys IsKey := by
  intro w hw
  obtain ⟨key, -, hw⟩ := List.mem_flatMap.mp hw
  simp only [List.mem_cons, List.not_mem_nil, or_false] at hw
  rcases hw with rfl | rfl
  · rfl
  · trivial

/-! ## What a client sees of them -/

/-- A record that is put changes the value of its key. -/
theorem get_put (db : Db) (key val : Bytes) :
    get (db.put (encodeKvKey key) (.bytes val)) = Function.update (get db) key (some val) := by
  funext key'
  rcases eq_or_ne key' key with rfl | hne
  · rw [Function.update_self, get, OrderedMap.get_put_self]
    rfl
  · rw [Function.update_of_ne hne, get, OrderedMap.get_put_of_ne]
    · rfl
    · exact fun heq => hne (encodeKvKey_inj heq)

/-- A record that is deleted takes the value of its key. -/
theorem get_delete (db : Db) (key : Bytes) :
    get (db.delete (encodeKvKey key)) = Function.update (get db) key none := by
  funext key'
  rcases eq_or_ne key' key with rfl | hne
  · rw [Function.update_self, get, OrderedMap.get_delete_self]
    rfl
  · rw [Function.update_of_ne hne, get, OrderedMap.get_delete_of_ne]
    · rfl
    · exact fun heq => hne (encodeKvKey_inj heq)

/-- `set` is an update of the values. -/
theorem get_apply_set (db : Db) {key : Bytes} (hkey : key ≠ []) (val : Bytes) (logType : BinlogType) :
    get (db.apply (set key val logType).2) = Function.update (get db) key (some val) := by
  rw [set, if_neg hkey, Db.apply_put, Db.apply_addLog, Db.apply_nil, get_put]

/-- `del` is an update of the values. -/
theorem get_apply_del (db : Db) (key : Bytes) (logType : BinlogType) :
    get (db.apply (del key logType).2) = Function.update (get db) key none := by
  rw [del, Db.apply_delete, Db.apply_addLog, Db.apply_nil, get_delete]

/-- `multi_set` updates the values one after another; of two for one key the last one stays. -/
theorem get_apply_multiSet (db : Db) {kvs : List (Bytes × Bytes)} (hkvs : ∀ kv ∈ kvs, kv.1 ≠ [])
    (logType : BinlogType) :
    get (db.apply (multiSet kvs logType).2) =
      kvs.foldl (fun (m : Bytes → Option Bytes) kv => Function.update m kv.1 (some kv.2)) (get db) := by
  have hnone : ¬ ∃ kv ∈ kvs, kv.1 = [] := fun ⟨kv, hkv, hnil⟩ => hkvs kv hkv hnil
  rw [multiSet, if_neg hnone]
  clear hkvs hnone
  induction kvs generalizing db with
  | nil => rfl
  | cons kv kvs ih =>
      rw [List.flatMap_cons, List.foldl_cons, ← get_put, ← ih]
      rfl

/-- `multi_del` takes the values one after another. -/
theorem get_apply_multiDel (db : Db) (keys : List Bytes) (logType : BinlogType) :
    get (db.apply (multiDel keys logType).2) =
      keys.foldl (fun m key => Function.update m key none) (get db) := by
  rw [multiDel]
  induction keys generalizing db with
  | nil => rfl
  | cons key keys ih =>
      rw [List.flatMap_cons, List.foldl_cons, ← get_delete, ← ih]
      rfl

/-- The records of pairs are in the order of the keys. -/
theorem encodeKvKey_lt {key key' : Bytes} : encodeKvKey key < encodeKvKey key' ↔ key < key' := by
  rw [encodeKvKey, encodeKvKey, List.cons_lt_cons_iff]
  simp

theorem encodeKvKey_le {key key' : Bytes} : encodeKvKey key ≤ encodeKvKey key' ↔ key ≤ key' := by
  rw [← not_lt, encodeKvKey_lt, not_lt]

/-- The keys of a scan lie between its bounds. -/
theorem mem_scan {db : Db} {first last : Bytes} {limit : ℕ} {p : Bytes × Bytes}
    (hp : p ∈ scan db first last limit) : first < p.1 ∧ (last ≠ [] → p.1 ≤ last) := by
  rw [scan, kIterator, List.mem_filterMap] at hp
  obtain ⟨⟨k, v⟩, hq, hp⟩ := hp
  obtain ⟨hq, key, rfl⟩ := mem_takeWhile_kv hq
  obtain rfl : (key, v.image) = p := by simpa [decodeNameKey, encodeKvKey, skip1] using hp
  obtain ⟨hfirst, hlast, -⟩ := mem_iterator hq
  refine ⟨encodeKvKey_lt.mp hfirst, ?_⟩
  intro hne
  rw [if_neg hne] at hlast
  exact encodeKvKey_le.mp (hlast (List.cons_ne_nil _ _))

/-- A scan returns the keys in order. -/
theorem scan_sorted (db : Db) (first last : Bytes) (limit : ℕ) :
    (scan db first last limit).Pairwise fun p q => p.1 < q.1 := by
  rw [scan, kIterator, List.pairwise_filterMap]
  have hsorted := (iterator_sorted db (encodeKvKey first)
    (if last = [] then [] else encodeKvKey last) limit).sublist
    (List.takeWhile_sublist fun p => p.1.head? = some DataType.KV)
  refine (List.Pairwise.and_mem.mp hsorted).imp ?_
  rintro ⟨k, v⟩ ⟨k', v'⟩ ⟨hk, hk', hlt⟩ p hp p' hp'
  obtain ⟨-, key, rfl⟩ := mem_takeWhile_kv hk
  obtain ⟨-, key', rfl⟩ := mem_takeWhile_kv hk'
  obtain rfl : (key, v.image) = p := by simpa [decodeNameKey, encodeKvKey, skip1] using hp
  obtain rfl : (key', v'.image) = p' := by simpa [decodeNameKey, encodeKvKey, skip1] using hp'
  exact encodeKvKey_lt.mp hlt

end Kv

end Ssdb
