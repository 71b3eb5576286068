/-
# Hashes

`ssdb-master/src/ssdb/t_hash.h`, `t_hash.cpp` and `proc_hash.cpp`.  A field of a hash is one record
under its name and key (`HASH`), and a second record counts the fields of the name (`HSIZE`).  Both
are written by different helpers from what the database held before the transaction.

`Db.IsHash` says that the records of a name are those of a finite map.  Every command keeps it, and
the count, the scan and the list of names are then exact (`hash_bookkeeping`).

Sizes are `int64_t` counters, which the model keeps as integers without bounds.
-/
import DoudizhuBackend.Ssdb.Iterator
import DoudizhuBackend.Ssdb.Numbers

namespace Ssdb

/-! ## Operations

Each returns its result and the calls of the transaction that it commits. -/

/-- `hget`. -/
def hget (db : Db) (name key : Bytes) : Option Bytes :=
  (db.get (encodeHashKey name key)).map Value.image

/-- `hsize`, `0` without a record. -/
def hsize (db : Db) (name : Bytes) : ℤ :=
  match db.get (encodeHsizeKey name) with
  | none => 0
  | some v =>
      match v.int64 with
      | none => 0
      | some n => if n < 0 then 0 else n

/-- `incr_hsize`. -/
def incrHsize (db : Db) (name : Bytes) (incr : ℤ) : List Write :=
  let size := hsize db name + incr
  if size = 0 then [.delete (encodeHsizeKey name)] else [.put (encodeHsizeKey name) (.int size)]

/-- `hset_one`: the number of new fields.  A value that is there already is not written again. -/
def hsetOne (db : Db) (name key val : Bytes) (logType : BinlogType) : ℤ × List Write :=
  if name = [] ∨ key = [] then (-1, [])
  else if keyLenMax < name.length ∨ keyLenMax < key.length then (-1, [])
  else
    let put : List Write :=
      [.put (encodeHashKey name key) (.bytes val), .addLog logType .hset (encodeHashKey name key)]
    match hget db name key with
    | none => (1, put)
    | some dbval => (0, if dbval ≠ val then put else [])

/-- `hdel_one`: the number of removed fields. -/
def hdelOne (db : Db) (name key : Bytes) (logType : BinlogType) : ℤ × List Write :=
  if keyLenMax < name.length ∨ keyLenMax < key.length then (-1, [])
  else
    match hget db name key with
    | none => (0, [])
    | some _ =>
        (1, [.delete (encodeHashKey name key), .addLog logType .hdel (encodeHashKey name key)])

/-- `hset`. -/
def hset (db : Db) (name key val : Bytes) (logType : BinlogType) : ℤ × List Write :=
  let (ret, ws) := hsetOne db name key val logType
  if 0 ≤ ret then (ret, if 0 < ret then ws ++ incrHsize db name ret else ws) else (ret, [])

/-- `hdel`. -/
def hdel (db : Db) (name key : Bytes) (logType : BinlogType) : ℤ × List Write :=
  let (ret, ws) := hdelOne db name key logType
  if 0 ≤ ret then (ret, if 0 < ret then ws ++ incrHsize db name (-ret) else ws) else (ret, [])

/-- `hincr`. -/
def hincr (db : Db) (name key : Bytes) (by_ : ℤ) (logType : BinlogType) : ℤ × ℤ × List Write :=
  match counterValue (hget db name key) by_ with
  | none => (0, 0, [])
  | some newVal =>
      let (ret, ws) := hsetOne db name key (str newVal) logType
      if ret = -1 then (-1, newVal, [])
      else (1, newVal, if 0 < ret then ws ++ incrHsize db name ret else ws)

/-! ## Range queries -/

/-- `hscan`. -/
def hscan (db : Db) (name first last : Bytes) (limit : ℕ) : List (Bytes × Bytes) :=
  hIterator name (iterator db (encodeHashKey name first)
    (if last = [] then [] else encodeHashKey name last) limit)

/-- `hrscan`. -/
def hrscan (db : Db) (name first last : Bytes) (limit : ℕ) : List (Bytes × Bytes) :=
  hIterator name (revIterator db (encodeHashKey name first ++ if first = [] then [255] else [])
    (if last = [] then [] else encodeHashKey name last) limit)

/-- `hlist`: the names of hashes, from their sizes. -/
def hlist (db : Db) (first last : Bytes) (limit : ℕ) : List Bytes :=
  nameIterator DataType.HSIZE (iterator db (encodeHsizeKey first)
    (if last = [] then [] else encodeHsizeKey last) limit)

/-- `hrlist`. -/
def hrlist (db : Db) (first last : Bytes) (limit : ℕ) : List Bytes :=
  nameIterator DataType.HSIZE (revIterator db
    (encodeHsizeKey first ++ if first = [] then [255] else [])
    (if last = [] then [] else encodeHsizeKey last) limit)

/-! ## Commands -/

/-- `proc_multi_hset`: up to the first that fails. -/
def procMultiHset (name : Bytes) : ℤ → List (Bytes × Bytes) → Db → Db × List Bytes
  | num, [], db => (db, replyInt 0 num)
  | num, (key, val) :: fields, db =>
      let (ret, ws) := hset db name key val .sync
      if ret = -1 then (db.apply ws, [ascii "error"])
      else procMultiHset name (num + ret) fields (db.apply ws)

/-- Removals up to the first that fails: the number of keys removed, and whether one failed. -/
def hdelLoop (name : Bytes) : List Bytes → Db → Db × ℤ × Bool
  | [], db => (db, 0, false)
  | key :: keys, db =>
      let (ret, ws) := hdel db name key .sync
      if ret = -1 then (db.apply ws, 0, true)
      else
        let (db', num, failed) := hdelLoop name keys (db.apply ws)
        (db', ret + num, failed)

/-- `proc_multi_hdel`. -/
def procMultiHdel (name : Bytes) (keys : List Bytes) (db : Db) : Db × List Bytes :=
  let (db', num, failed) := hdelLoop name keys db
  (db', if failed then [ascii "error"] else replyInt 0 num)

/-- The rounds of `hclear`: up to 1000 fields, until there are none.  Every round removes at least
one of the records of the database. -/
def hclearRounds (name : Bytes) : ℕ → ℤ → Db → Db × ℤ
  | 0, count, db => (db, count)
  | fuel + 1, count, db =>
      let fields := hscan db name [] [] 1000
      if fields = [] then (db, count)
      else
        let (db', _, failed) := hdelLoop name (fields.map (·.1)) db
        if failed then (db', 0) else hclearRounds name fuel (count + fields.length) db'

/-- `hclear`: deletes in rounds, until one finds nothing. -/
def hclear (name : Bytes) (db : Db) : Db × ℤ := hclearRounds name (db.entries.length + 1) 0 db

/-- The commands that write hashes; the number of `hincr` is the one read from the request, and
`hdecr` is `hincr` with its negation. -/
inductive HashCommand where
  | hset (name key val : Bytes)
  | hdel (name key : Bytes)
  | hincr (name key : Bytes) (by_ : ℤ)
  | hclear (name : Bytes)
  | multiHset (name : Bytes) (fields : List (Bytes × Bytes))
  | multiHdel (name : Bytes) (keys : List Bytes)

namespace HashCommand

/-- The database and the reply after a command. -/
def run (db : Db) : HashCommand → Db × List Bytes
  | hset name key val =>
      let (ret, ws) := Ssdb.hset db name key val .sync
      (db.apply ws, replyBool ret)
  | hdel name key =>
      let (ret, ws) := Ssdb.hdel db name key .sync
      (db.apply ws, replyBool ret)
  | hincr name key by_ =>
      let (ret, newVal, ws) := Ssdb.hincr db name key by_ .sync
      (db.apply ws, if ret = 0 then [ascii "error", ascii "value is not an integer or out of range"]
        else replyInt ret newVal)
  | hclear name =>
      let (db', count) := Ssdb.hclear name db
      (db', replyInt 0 count)
  | multiHset name fields => procMultiHset name 0 fields db
  | multiHdel name keys => procMultiHdel name keys db

/-- The store after a command. -/
def exec (db : Db) (c : HashCommand) : Db := (c.run db).1

end HashCommand

/-! ## Keys of the records -/

/-- What stands before the key of a field. -/
def hashStart (name : Bytes) : Bytes := DataType.HASH :: lenByte name :: (name ++ [equalSign])

/-- The fields of a hash have keys with a common start. -/
theorem encodeHashKey_eq (name key : Bytes) : encodeHashKey name key = hashStart name ++ key := by
  simp [encodeHashKey, hashStart]

/-- The names and keys that `hset` accepts. -/
structure IsField (name key : Bytes) : Prop where
  name_ne_nil : name ≠ []
  key_ne_nil : key ≠ []
  name_short : IsShort name
  key_short : IsShort key

/-- A field is one that the checks of `hset_one` let through. -/
theorem isField_iff (name key : Bytes) :
    IsField name key ↔ ¬ (name = [] ∨ key = []) ∧
      ¬ (keyLenMax < name.length ∨ keyLenMax < key.length) := by
  constructor
  · rintro ⟨hname, hkey, hname', hkey'⟩
    simp only [IsShort, keyLenMax] at *
    exact ⟨by tauto, by omega⟩
  · rintro ⟨hempty, hlong⟩
    rw [not_or] at hempty
    simp only [keyLenMax] at hlong
    refine ⟨hempty.1, hempty.2, ?_, ?_⟩
    · simp only [IsShort]
      omega
    · simp only [IsShort]
      omega

instance decidableIsField (name key : Bytes) : Decidable (IsField name key) :=
  decidable_of_iff _ (isField_iff name key).symm

/-- The key of a field tells its name and key, also when the other name is long: the length byte
then leaves too little for the key. -/
theorem encodeHashKey_inj {name name' key key' : Bytes} (hname : IsShort name) (hkey : IsShort key)
    (h : encodeHashKey name key = encodeHashKey name' key') : name = name' ∧ key = key' := by
  have hlength := congrArg List.length h
  simp only [encodeHashKey, List.length_cons, List.length_append] at hlength
  simp only [encodeHashKey, List.cons.injEq, true_and, lenByte_eq_iff] at h
  simp only [IsShort] at hname hkey
  have hsame : name.length = name'.length := by omega
  obtain ⟨rfl, hrest⟩ := List.append_inj h.2 hsame
  exact ⟨rfl, (List.cons.inj hrest).2⟩

/-- Fields and sizes have keys apart. -/
theorem hashKey_ne_hsizeKey (name key name' : Bytes) :
    encodeHashKey name key ≠ encodeHsizeKey name' := by
  intro h
  have := (List.cons.inj h).1
  revert this
  decide

/-- Two sizes do not share a record. -/
theorem hsizeKey_inj {name name' : Bytes} (h : encodeHsizeKey name = encodeHsizeKey name') :
    name = name' :=
  (List.cons.inj h).2

/-! ## The records of a finite map -/

/-- **The records of the hash `name` are those of a finite map** from keys to values, and there is no
size record for the empty map. -/
structure Db.IsHash (db : Db) (name : Bytes) (content : Bytes → Option Bytes) (keys : List Bytes) :
    Prop where
  field : ∀ key, db.get (encodeHashKey name key) = (content key).map Value.bytes
  size : db.get (encodeHsizeKey name) = if keys = [] then none else some (.int keys.length)
  nodup : keys.Nodup
  mem_keys : ∀ key, key ∈ keys ↔ (content key).isSome
  isField : ∀ key, (content key).isSome → IsField name key

namespace Db.IsHash

variable {db : Db} {name key : Bytes} {content : Bytes → Option Bytes} {keys : List Bytes}

/-- `hget` gives the value of the field. -/
theorem hget_eq (h : db.IsHash name content keys) (key : Bytes) : hget db name key = content key := by
  rw [hget, h.field]
  cases content key <;> rfl

/-- `hsize` is the number of fields. -/
theorem hsize_eq (h : db.IsHash name content keys) : hsize db name = keys.length := by
  rw [hsize, h.size]
  by_cases hnil : keys = []
  · rw [if_pos hnil, hnil]
    rfl
  · rw [if_neg hnil]
    simp only [Value.int64]
    rw [if_neg (by omega)]

/-- A hash depends on its own records. -/
theorem congr {db' : Db} (h : db.IsHash name content keys)
    (hfield : ∀ key, db'.get (encodeHashKey name key) = db.get (encodeHashKey name key))
    (hsize : db'.get (encodeHsizeKey name) = db.get (encodeHsizeKey name)) :
    db'.IsHash name content keys where
  field := fun key => (hfield key).trans (h.field key)
  size := hsize.trans h.size
  nodup := h.nodup
  mem_keys := h.mem_keys
  isField := h.isField

/-- Another value for a field. -/
theorem update (h : db.IsHash name content keys) (hfield : IsField name key)
    (hold : (content key).isSome) (val : Bytes) :
    Db.IsHash (db.put (encodeHashKey name key) (.bytes val)) name
      (Function.update content key (some val)) keys where
  field := by
    intro key'
    rcases eq_or_ne key' key with rfl | hne
    · rw [OrderedMap.get_put_self, Function.update_self]
      rfl
    · rw [OrderedMap.get_put_of_ne, Function.update_of_ne hne, h.field]
      intro heq
      exact hne (encodeHashKey_inj hfield.name_short hfield.key_short heq.symm).2.symm
  size := by rw [OrderedMap.get_put_of_ne _ _ (hashKey_ne_hsizeKey _ _ _).symm, h.size]
  nodup := h.nodup
  mem_keys := by
    intro key'
    rw [h.mem_keys, Function.update_apply]
    split_ifs with hk
    · simp [hk, hold]
    · rfl
  isField := by
    intro key' hsome
    rw [Function.update_apply] at hsome
    split_ifs at hsome with hk
    · exact hk ▸ hfield
    · exact h.isField key' hsome

/-- A new field. -/
theorem insert (h : db.IsHash name content keys) (hfield : IsField name key)
    (hnew : content key = none) (val : Bytes) :
    Db.IsHash ((db.put (encodeHashKey name key) (.bytes val)).put (encodeHsizeKey name)
      (.int (keys.length + 1))) name (Function.update content key (some val)) (key :: keys) where
  field := by
    intro key'
    rw [OrderedMap.get_put_of_ne _ _ (hashKey_ne_hsizeKey _ _ _)]
    rcases eq_or_ne key' key with rfl | hne
    · rw [OrderedMap.get_put_self, Function.update_self]
      rfl
    · rw [OrderedMap.get_put_of_ne, Function.update_of_ne hne, h.field]
      intro heq
      exact hne (encodeHashKey_inj hfield.name_short hfield.key_short heq.symm).2.symm
  size := by
    rw [OrderedMap.get_put_self, if_neg (List.cons_ne_nil _ _)]
    simp
  nodup := by
    rw [List.nodup_cons]
    refine ⟨?_, h.nodup⟩
    rw [h.mem_keys, hnew]
    simp
  mem_keys := by
    intro key'
    rw [List.mem_cons, h.mem_keys, Function.update_apply]
    by_cases hk : key' = key
    · simp [hk]
    · simp [hk]
  isField := by
    intro key' hsome
    rw [Function.update_apply] at hsome
    split_ifs at hsome with hk
    · exact hk ▸ hfield
    · exact h.isField key' hsome

/-- A field less: the calls of `hdel`. -/
theorem remove (h : db.IsHash name content keys) (hold : (content key).isSome) :
    Db.IsHash (Db.apply (db.delete (encodeHashKey name key)) (incrHsize db name (-1))) name
      (Function.update content key none) (keys.erase key) := by
  have hfield := h.isField key hold
  have hmem : key ∈ keys := (h.mem_keys key).mpr hold
  have hlength := List.length_erase_of_mem hmem
  have hpos := List.length_pos_of_mem hmem
  have happly : Db.apply (db.delete (encodeHashKey name key)) (incrHsize db name (-1)) =
      if keys.erase key = [] then (db.delete (encodeHashKey name key)).delete (encodeHsizeKey name)
      else (db.delete (encodeHashKey name key)).put (encodeHsizeKey name)
        (.int (keys.erase key).length) := by
    rw [incrHsize, h.hsize_eq]
    by_cases hnil : keys.erase key = []
    · rw [if_pos hnil]
      rw [hnil, List.length_nil] at hlength
      simp only [if_pos (show (keys.length : ℤ) + -1 = 0 by omega)]
      rfl
    · rw [if_neg hnil]
      have hpos' := List.length_pos_of_ne_nil hnil
      simp only [if_neg (show ¬ (keys.length : ℤ) + -1 = 0 by omega)]
      rw [show (keys.length : ℤ) + -1 = ((keys.erase key).length : ℕ) by omega]
      rfl
  rw [happly]
  constructor
  case field =>
    intro key'
    -- the size record is another key in both branches
    have hrecord : ∀ db' : Db, (if keys.erase key = [] then db'.delete (encodeHsizeKey name)
        else db'.put (encodeHsizeKey name) (.int (keys.erase key).length)).get
          (encodeHashKey name key') = db'.get (encodeHashKey name key') := by
      intro db'
      split_ifs
      · exact OrderedMap.get_delete_of_ne _ (hashKey_ne_hsizeKey _ _ _)
      · exact OrderedMap.get_put_of_ne _ _ (hashKey_ne_hsizeKey _ _ _)
    rw [hrecord]
    rcases eq_or_ne key' key with rfl | hne
    · rw [OrderedMap.get_delete_self, Function.update_self]
      rfl
    · rw [OrderedMap.get_delete_of_ne, Function.update_of_ne hne, h.field]
      intro heq
      exact hne (encodeHashKey_inj hfield.name_short hfield.key_short heq.symm).2.symm
  case size =>
    split_ifs
    · exact OrderedMap.get_delete_self _ _
    · exact OrderedMap.get_put_self _ _ _
  case nodup => exact h.nodup.erase key
  case mem_keys =>
    intro key'
    rw [h.nodup.mem_erase_iff, h.mem_keys, Function.update_apply]
    by_cases hk : key' = key
    · simp [hk]
    · simp [hk]
  case isField =>
    intro key' hsome
    rw [Function.update_apply] at hsome
    split_ifs at hsome
    · cases hsome
    · exact h.isField key' hsome

end Db.IsHash

/-! ## What the operations do -/

/-- The calls that `hset` and `hincr` commit. -/
def hsetWrites (db : Db) (name key val : Bytes) (logType : BinlogType) : List Write :=
  let (ret, ws) := hsetOne db name key val logType
  if 0 < ret then ws ++ incrHsize db name ret else ws

/-- A key that is no field is refused. -/
theorem hsetOne_refused {db : Db} {name key : Bytes} (hfield : ¬ IsField name key) (val : Bytes)
    (logType : BinlogType) : hsetOne db name key val logType = (-1, []) := by
  rw [hsetOne]
  by_cases hempty : name = [] ∨ key = []
  · rw [if_pos hempty]
  · rw [if_neg hempty, if_pos]
    by_contra hlong
    exact hfield ((isField_iff name key).mpr ⟨hempty, hlong⟩)

/-- What `hset_one` does to a field. -/
theorem hsetOne_field {db : Db} {name key : Bytes} (hfield : IsField name key) (val : Bytes)
    (logType : BinlogType) :
    hsetOne db name key val logType =
      match hget db name key with
      | none => (1, [.put (encodeHashKey name key) (.bytes val),
          .addLog logType .hset (encodeHashKey name key)])
      | some old => (0, if old ≠ val then [.put (encodeHashKey name key) (.bytes val),
          .addLog logType .hset (encodeHashKey name key)] else []) := by
  obtain ⟨hempty, hlong⟩ := (isField_iff name key).mp hfield
  rw [hsetOne, if_neg hempty, if_neg hlong]

/-- A field is not refused. -/
theorem hsetOne_nonneg (db : Db) {name key : Bytes} (hfield : IsField name key) (val : Bytes)
    (logType : BinlogType) : 0 ≤ (hsetOne db name key val logType).1 := by
  rw [hsetOne_field hfield]
  cases hget db name key <;> simp

/-- What `hset` returns. -/
theorem hset_ret (db : Db) (name key val : Bytes) (logType : BinlogType) :
    (hset db name key val logType).1 =
      if IsField name key then (if hget db name key = none then 1 else 0) else -1 := by
  split_ifs with hfield hnone
  · simp only [hset, hsetOne_field hfield, hnone]
    rfl
  · obtain ⟨old, hold⟩ := Option.ne_none_iff_exists'.mp hnone
    simp only [hset, hsetOne_field hfield, hold]
    rfl
  · simp only [hset, hsetOne_refused hfield]
    rfl

/-- What `hset` writes. -/
theorem hset_writes (db : Db) (name key val : Bytes) (logType : BinlogType) :
    (hset db name key val logType).2 = hsetWrites db name key val logType := by
  by_cases hfield : IsField name key
  · simp only [hset, hsetWrites, if_pos (hsetOne_nonneg db hfield val logType)]
  · simp only [hset, hsetWrites, hsetOne_refused hfield]
    rfl

/-- `hincr` stores the text of the new value, or nothing. -/
theorem hincr_writes (db : Db) (name key : Bytes) (by_ : ℤ) (logType : BinlogType) :
    (hincr db name key by_ logType).2.2 =
      match counterValue (hget db name key) by_ with
      | none => []
      | some newVal => hsetWrites db name key (str newVal) logType := by
  rw [hincr]
  cases counterValue (hget db name key) by_ with
  | none => rfl
  | some newVal =>
      simp only [hsetWrites]
      split
      · rename_i hret
        by_cases hfield : IsField name key
        · have := hsetOne_nonneg db hfield (str newVal) logType
          omega
        · rw [hsetOne_refused hfield]
          rfl
      · rfl

/-- A name or a key that is too long is refused. -/
theorem hdelOne_long {db : Db} {name key : Bytes} (h : ¬ (IsShort name ∧ IsShort key))
    (logType : BinlogType) : hdelOne db name key logType = (-1, []) := by
  have hlong : keyLenMax < name.length ∨ keyLenMax < key.length := by
    simp only [IsShort, keyLenMax] at *
    omega
  rw [hdelOne, if_pos hlong]

/-- What `hdel` does. -/
theorem hdel_short {db : Db} {name key : Bytes} (hname : IsShort name) (hkey : IsShort key)
    (logType : BinlogType) :
    hdel db name key logType =
      match hget db name key with
      | none => (0, [])
      | some _ => (1, .delete (encodeHashKey name key) ::
          .addLog logType .hdel (encodeHashKey name key) :: incrHsize db name (-1)) := by
  have hshort : ¬ (keyLenMax < name.length ∨ keyLenMax < key.length) := by
    simp only [IsShort, keyLenMax] at *
    omega
  rw [hdel, hdelOne, if_neg hshort]
  cases hget db name key with
  | none => rfl
  | some old => rfl

/-- The keys of the records of a field. -/
def IsFieldKey (name key k : Bytes) : Prop := k = encodeHashKey name key ∨ k = encodeHsizeKey name

/-- The change of a size writes the size only. -/
theorem onSize_incrHsize (db : Db) (name : Bytes) (incr : ℤ) :
    ∀ w ∈ incrHsize db name incr, w.OnKeys (· = encodeHsizeKey name) := by
  intro w hw
  unfold incrHsize at hw
  dsimp only at hw
  split at hw
  · rw [List.mem_singleton.mp hw]
    rfl
  · rw [List.mem_singleton.mp hw]
    rfl

/-- The change of a size writes to the hash only. -/
theorem onField_incrHsize (db : Db) (name key : Bytes) (incr : ℤ) :
    ∀ w ∈ incrHsize db name incr, w.OnKeys (IsFieldKey name key) := by
  intro w hw
  have hsize := onSize_incrHsize db name incr w hw
  cases w with
  | put k v => exact Or.inr hsize
  | delete k => exact Or.inr hsize
  | addLog type cmd key => trivial

/-- `hset` writes to the field only. -/
theorem onField_hsetWrites (db : Db) (name key val : Bytes) (logType : BinlogType) :
    ∀ w ∈ hsetWrites db name key val logType, w.OnKeys (IsFieldKey name key) := by
  intro w hw
  have hput : ∀ v : Value, ∀ w ∈ [Write.put (encodeHashKey name key) v,
      .addLog logType .hset (encodeHashKey name key)], w.OnKeys (IsFieldKey name key) := by
    intro v w hw
    simp only [List.mem_cons, List.not_mem_nil, or_false] at hw
    rcases hw with rfl | rfl
    · exact Or.inl rfl
    · trivial
  by_cases hfield : IsField name key
  · simp only [hsetWrites, hsetOne_field hfield] at hw
    cases hold : hget db name key with
    | none =>
        rw [hold] at hw
        rcases List.mem_append.mp hw with hw | hw
        · exact hput _ w hw
        · exact onField_incrHsize db name key 1 w hw
    | some old =>
        rw [hold] at hw
        simp only [lt_irrefl, if_false] at hw
        split at hw
        · exact hput _ w hw
        · cases hw
  · simp only [hsetWrites, hsetOne_refused hfield] at hw
    cases hw

/-- `hdel` writes to the field only. -/
theorem onField_hdel (db : Db) (name key : Bytes) (logType : BinlogType) :
    ∀ w ∈ (hdel db name key logType).2, w.OnKeys (IsFieldKey name key) := by
  intro w hw
  by_cases hshort : IsShort name ∧ IsShort key
  · rw [hdel_short hshort.1 hshort.2] at hw
    cases hold : hget db name key with
    | none => rw [hold] at hw; cases hw
    | some old =>
        rw [hold] at hw
        simp only [List.mem_cons] at hw
        rcases hw with rfl | rfl | hw
        · exact Or.inl rfl
        · trivial
        · exact onField_incrHsize db name key (-1) w hw
  · simp only [hdel, hdelOne_long hshort] at hw
    cases hw

/-- What is read of the fields after a value was set. -/
theorem hget_apply_hsetWrites (db : Db) {name key : Bytes} (hfield : IsField name key) (val : Bytes)
    (logType : BinlogType) (name' key' : Bytes) :
    hget (db.apply (hsetWrites db name key val logType)) name' key' =
      if name' = name ∧ key' = key then some val else hget db name' key' := by
  have hput : ∀ db' : Db, hget (db'.put (encodeHashKey name key) (.bytes val)) name' key' =
      if name' = name ∧ key' = key then some val else hget db' name' key' := by
    intro db'
    rw [hget, OrderedMap.get_put]
    by_cases hsame : name' = name ∧ key' = key
    · rw [if_pos hsame, hsame.1, hsame.2, if_pos rfl]
      rfl
    · rw [if_neg hsame, if_neg]
      · rfl
      · intro heq
        obtain ⟨hname, hkey⟩ := encodeHashKey_inj hfield.name_short hfield.key_short heq.symm
        exact hsame ⟨hname.symm, hkey.symm⟩
  simp only [hsetWrites, hsetOne_field hfield]
  cases hold : hget db name key with
  | none =>
      simp only [zero_lt_one, if_true, List.cons_append, List.nil_append, Db.apply_put,
        Db.apply_addLog]
      rw [← hput, hget, hget, get_apply_of_onKeys (onSize_incrHsize db name 1)]
      exact hashKey_ne_hsizeKey _ _ _
  | some old =>
      simp only [lt_irrefl, if_false]
      by_cases heq : old = val
      · rw [if_neg (by simpa using heq), Db.apply_nil]
        split_ifs with hsame
        · rw [hsame.1, hsame.2, hold, heq]
        · rfl
      · rw [if_pos heq, Db.apply_put, Db.apply_addLog, Db.apply_nil, hput]

namespace Db.IsHash

variable {db : Db} {name key : Bytes} {content : Bytes → Option Bytes} {keys : List Bytes}

/-- **`hset_one` with its size update sets the value of a field.** -/
theorem hsetWrites_spec (h : db.IsHash name content keys) (hfield : IsField name key) (val : Bytes)
    (logType : BinlogType) :
    ∃ keys', Db.IsHash (db.apply (hsetWrites db name key val logType)) name
      (Function.update content key (some val)) keys' := by
  have hget := h.hget_eq key
  cases hold : content key with
  | none =>
      rw [hold] at hget
      have hwrites : hsetWrites db name key val logType =
          [.put (encodeHashKey name key) (.bytes val),
            .addLog logType .hset (encodeHashKey name key),
            .put (encodeHsizeKey name) (.int (keys.length + 1))] := by
        simp only [hsetWrites, hsetOne_field hfield, hget, incrHsize, h.hsize_eq,
          if_neg (show ¬ (keys.length : ℤ) + 1 = 0 by omega)]
        rfl
      rw [hwrites]
      exact ⟨key :: keys, h.insert hfield hold val⟩
  | some old =>
      rw [hold] at hget
      have hsome : (content key).isSome := by
        rw [hold]
        rfl
      by_cases heq : old = val
      · -- the value is there: nothing is written
        have hwrites : hsetWrites db name key val logType = [] := by
          simp [hsetWrites, hsetOne_field hfield, hget, heq]
        have hsame : Function.update content key (some val) = content := by
          rw [← heq, ← hold, Function.update_eq_self]
        rw [hwrites, hsame]
        exact ⟨keys, h⟩
      · have hwrites : hsetWrites db name key val logType =
            [.put (encodeHashKey name key) (.bytes val),
              .addLog logType .hset (encodeHashKey name key)] := by
          simp [hsetWrites, hsetOne_field hfield, hget, heq]
        rw [hwrites]
        exact ⟨keys, h.update hfield hsome val⟩

/-- Fields have short names and keys. -/
theorem content_of_long (h : db.IsHash name content keys) (hlong : ¬ (IsShort name ∧ IsShort key)) :
    content key = none := by
  cases hold : content key with
  | none => rfl
  | some old =>
      have hfield := h.isField key (by rw [hold]; rfl)
      exact absurd ⟨hfield.name_short, hfield.key_short⟩ hlong

/-- **`hdel` removes a field.** -/
theorem hdel_spec (h : db.IsHash name content keys) (key : Bytes) (logType : BinlogType) :
    Db.IsHash (db.apply (hdel db name key logType).2) name (Function.update content key none)
      (keys.erase key) := by
  cases hold : content key with
  | none =>
      have hwrites : (hdel db name key logType).2 = [] := by
        by_cases hshort : IsShort name ∧ IsShort key
        · rw [hdel_short hshort.1 hshort.2, h.hget_eq, hold]
        · simp only [hdel, hdelOne_long hshort]
          rfl
      have hsame : Function.update content key none = content := by
        rw [← hold, Function.update_eq_self]
      have hkeys : keys.erase key = keys := by
        apply List.erase_of_not_mem
        rw [h.mem_keys, hold]
        simp
      rw [hwrites, hsame, hkeys]
      exact h
  | some old =>
      have hsome : (content key).isSome := by
        rw [hold]
        rfl
      have hfield := h.isField key hsome
      rw [hdel_short hfield.name_short hfield.key_short, h.hget_eq, hold]
      exact h.remove hsome

/-- What `hdel` returns. -/
theorem hdel_ret (h : db.IsHash name content keys) (key : Bytes) (logType : BinlogType) :
    (hdel db name key logType).1 = 1 ↔ hget db name key ≠ none := by
  rw [h.hget_eq]
  by_cases hshort : IsShort name ∧ IsShort key
  · rw [hdel_short hshort.1 hshort.2, h.hget_eq]
    cases content key <;> simp
  · rw [h.content_of_long hshort]
    simp only [hdel, hdelOne_long hshort]
    simp

/-- A hash stays as it is under writes to a field of another one. -/
theorem apply_other {name' : Bytes} {ws : List Write} (h : db.IsHash name' content keys)
    (hne : name' ≠ name) (hname : IsShort name) (hkey : IsShort key)
    (hws : ∀ w ∈ ws, w.OnKeys (IsFieldKey name key)) : Db.IsHash (db.apply ws) name' content keys := by
  apply h.congr
  · intro key'
    apply get_apply_of_onKeys hws
    rintro (heq | heq)
    · exact hne (encodeHashKey_inj hname hkey heq.symm).1.symm
    · exact hashKey_ne_hsizeKey _ _ _ heq
  · apply get_apply_of_onKeys hws
    rintro (heq | heq)
    · exact hashKey_ne_hsizeKey _ _ _ heq.symm
    · exact hne (hsizeKey_inj heq)

end Db.IsHash

/-! ## Every command keeps the records together -/

/-- The key of a `HASH` record is that of a field. -/
def IsHashKey (k : Bytes) : Prop :=
  k.head? = some DataType.HASH → ∃ name key, IsField name key ∧ k = encodeHashKey name key

/-- Every hash of the database is a finite map, and there are no other `HASH` records. -/
structure Db.AllHashes (db : Db) : Prop where
  hashes : ∀ name, ∃ content keys, db.IsHash name content keys
  keys : Db.Keys IsHashKey db

/-- Writes to a field are writes to hashes. -/
theorem isHashKey_of_isFieldKey {name key k : Bytes} (hfield : IsField name key)
    (hk : IsFieldKey name key k) : IsHashKey k := by
  intro hhead
  rcases hk with rfl | rfl
  · exact ⟨name, key, hfield, rfl⟩
  · exact absurd hhead (show some DataType.HSIZE ≠ some DataType.HASH by decide)

namespace Db.AllHashes

variable {db : Db}

/-- In the empty store there is nothing to fit. -/
theorem empty : Db.AllHashes OrderedMap.empty where
  hashes := by
    intro name
    refine ⟨fun _ => none, [], ?_, rfl, List.nodup_nil, ?_, ?_⟩
    · exact fun key => rfl
    · exact fun key => by simp
    · exact fun key hsome => by cases hsome
  keys := Db.Keys.empty

/-- What `hset` writes keeps the records of all hashes together. -/
theorem hsetWrites (h : db.AllHashes) (name key val : Bytes) (logType : BinlogType) :
    Db.AllHashes (db.apply (hsetWrites db name key val logType)) := by
  by_cases hfield : IsField name key
  · have hon := onField_hsetWrites db name key val logType
    constructor
    case hashes =>
      intro name'
      obtain ⟨content, keys, hh⟩ := h.hashes name'
      rcases eq_or_ne name' name with rfl | hne
      · obtain ⟨keys', hh'⟩ := hh.hsetWrites_spec hfield val logType
        exact ⟨_, keys', hh'⟩
      · exact ⟨content, keys, hh.apply_other hne hfield.name_short hfield.key_short hon⟩
    case keys =>
      apply h.keys.apply
      exact fun w hw => (hon w hw).puts fun k hk => isHashKey_of_isFieldKey hfield hk
  · have hwrites : Ssdb.hsetWrites db name key val logType = [] := by
      simp only [Ssdb.hsetWrites, hsetOne_refused hfield]
      rfl
    rw [hwrites]
    exact h

/-- So does `hset`. -/
theorem hset (h : db.AllHashes) (name key val : Bytes) (logType : BinlogType) :
    Db.AllHashes (db.apply (hset db name key val logType).2) := by
  rw [hset_writes]
  exact h.hsetWrites name key val logType

/-- So does `hincr`. -/
theorem hincr (h : db.AllHashes) (name key : Bytes) (by_ : ℤ) (logType : BinlogType) :
    Db.AllHashes (db.apply (hincr db name key by_ logType).2.2) := by
  rw [hincr_writes]
  split
  · exact h
  · exact h.hsetWrites name key _ logType

/-- And so does `hdel`. -/
theorem hdel (h : db.AllHashes) (name key : Bytes) (logType : BinlogType) :
    Db.AllHashes (db.apply (hdel db name key logType).2) := by
  have hon := onField_hdel db name key logType
  obtain ⟨content, keys, hh⟩ := h.hashes name
  by_cases hold : (content key).isSome
  · have hfield := hh.isField key hold
    constructor
    case hashes =>
      intro name'
      rcases eq_or_ne name' name with rfl | hne
      · exact ⟨_, _, hh.hdel_spec key logType⟩
      · obtain ⟨content', keys', hh'⟩ := h.hashes name'
        exact ⟨content', keys', hh'.apply_other hne hfield.name_short hfield.key_short hon⟩
    case keys =>
      apply h.keys.apply
      exact fun w hw => (hon w hw).puts fun k hk => isHashKey_of_isFieldKey hfield hk
  · have hwrites : (Ssdb.hdel db name key logType).2 = [] := by
      have hnone : hget db name key = none := by
        rw [hh.hget_eq]
        exact Option.not_isSome_iff_eq_none.mp hold
      by_cases hshort : IsShort name ∧ IsShort key
      · rw [hdel_short hshort.1 hshort.2, hnone]
      · simp only [Ssdb.hdel, hdelOne_long hshort]
        rfl
    rw [hwrites]
    exact h

/-- The loop of `multi_hdel` keeps them together. -/
theorem hdelLoop (name : Bytes) (keys : List Bytes) : ∀ {db : Db}, db.AllHashes →
    Db.AllHashes (hdelLoop name keys db).1 := by
  induction keys with
  | nil => intro db h; exact h
  | cons key keys ih =>
      intro db h
      have hdel := h.hdel name key .sync
      simp only [Ssdb.hdelLoop]
      split
      · exact hdel
      · exact ih hdel

/-- The loop of `multi_hset` keeps them together. -/
theorem procMultiHset (name : Bytes) (fields : List (Bytes × Bytes)) : ∀ {db : Db} (num : ℤ),
    db.AllHashes → Db.AllHashes (procMultiHset name num fields db).1 := by
  induction fields with
  | nil => intro db num h; exact h
  | cons field fields ih =>
      intro db num h
      have hset := h.hset name field.1 field.2 .sync
      simp only [Ssdb.procMultiHset]
      split
      · exact hset
      · exact ih _ hset

/-- The rounds of `hclear` keep them together. -/
theorem hclearRounds (name : Bytes) (fuel : ℕ) : ∀ {db : Db} (count : ℤ), db.AllHashes →
    Db.AllHashes (hclearRounds name fuel count db).1 := by
  induction fuel with
  | zero => intro db count h; exact h
  | succ fuel ih =>
      intro db count h
      simp only [Ssdb.hclearRounds]
      split
      · exact h
      · split
        · exact hdelLoop name _ h
        · exact ih _ (hdelLoop name _ h)

/-- Every command keeps them together. -/
theorem exec (h : db.AllHashes) (c : HashCommand) : Db.AllHashes (c.exec db) := by
  cases c with
  | hset name key val => exact h.hset name key val .sync
  | hdel name key => exact h.hdel name key .sync
  | hincr name key by_ => exact h.hincr name key by_ .sync
  | hclear name => exact hclearRounds name (db.entries.length + 1) 0 h
  | multiHset name fields => exact procMultiHset name fields 0 h
  | multiHdel name keys => exact hdelLoop name keys h

end Db.AllHashes

/-! ## What a scan returns -/

/-- A walk over the records of fields returns those with the name, up to the first other one. -/
theorem hIterator_eq {name : Bytes} (hname : IsShort name) {es : List (Bytes × Value)}
    (hes : ∀ p ∈ es, IsHashKey p.1) :
    hIterator name es = (es.takeWhile fun p => hashStart name <+: p.1).map fun p =>
      (p.1.drop (hashStart name).length, p.2.image) := by
  induction es with
  | nil => rfl
  | cons p es ih =>
      have hrest := ih fun q hq => hes q (List.mem_cons_of_mem _ hq)
      by_cases hhead : p.1.head? = some DataType.HASH
      · obtain ⟨name', key, hfield, hkey⟩ := hes p List.mem_cons_self hhead
        have hdecode : decodeHashKey p.1 = some (name', key) := by
          rw [hkey, decodeHashKey_encode hfield.name_short]
        simp only [hIterator, if_pos hhead, hdecode]
        by_cases hsame : name' = name
        · subst hsame
          have hpre : hashStart name' <+: p.1 := ⟨key, by rw [hkey, encodeHashKey_eq]⟩
          rw [if_pos rfl, List.takeWhile_cons_of_pos (by simpa using hpre), List.map_cons, hrest, hkey,
            encodeHashKey_eq, List.drop_left]
        · have hpre : ¬ hashStart name <+: p.1 := by
            rintro ⟨t, ht⟩
            rw [hkey, ← encodeHashKey_eq] at ht
            exact hsame (encodeHashKey_inj hfield.name_short hfield.key_short ht.symm).1
          rw [if_neg hsame, List.takeWhile_cons_of_neg (by simpa using hpre)]
          rfl
      · have hpre : ¬ hashStart name <+: p.1 := by
          rintro ⟨t, ht⟩
          rw [← ht] at hhead
          exact hhead rfl
        simp only [hIterator, if_neg hhead]
        rw [List.takeWhile_cons_of_neg (by simpa using hpre)]
        rfl

/-- No field has a name that is too long. -/
theorem hIterator_long {name : Bytes} (hname : ¬ IsShort name) {es : List (Bytes × Value)}
    (hes : ∀ p ∈ es, IsHashKey p.1) : hIterator name es = [] := by
  cases es with
  | nil => rfl
  | cons p es =>
      by_cases hhead : p.1.head? = some DataType.HASH
      · obtain ⟨name', key, hfield, hkey⟩ := hes p List.mem_cons_self hhead
        have hdecode : decodeHashKey p.1 = some (name', key) := by
          rw [hkey, decodeHashKey_encode hfield.name_short]
        have hne : ¬ name' = name := by
          rintro rfl
          exact hname hfield.name_short
        simp only [hIterator, if_pos hhead, hdecode, if_neg hne]
      · simp only [hIterator, if_neg hhead]

namespace Db.AllHashes

variable {db : Db} {name : Bytes}

/-- The fields of a name, in the order of their keys. -/
theorem hscan_eq (h : db.AllHashes) (hname : IsShort name) (first : Bytes) (limit : ℕ) :
    hscan db name first [] limit =
      (((db.under (hashStart name)).filter fun p => first < p.1).take limit).map fun p =>
        (p.1, p.2.image) := by
  rw [hscan, if_pos rfl, encodeHashKey_eq, hIterator_eq hname, iterator_stretch, List.map_map]
  · apply List.map_congr_left
    intro p _
    simp [OrderedMap.attach]
  · exact fun p hp => h.keys p.1 p.2 (mem_iterator hp).2.2

/-- The fields of a hash and the finite map: what `hscan` lists. -/
theorem exists_fields (h : db.AllHashes) (hname : IsShort name) :
    ∃ fields : List (Bytes × Bytes),
      (∀ limit, hscan db name [] [] limit = fields.take limit) ∧
        fields.Pairwise (fun p q => p.1 < q.1) ∧
        (∀ key val, (key, val) ∈ fields ↔ hget db name key = some val) ∧
        hsize db name = fields.length := by
  obtain ⟨content, keys, hh⟩ := h.hashes name
  have hmem : ∀ key v, (key, v) ∈ db.under (hashStart name) ↔
      ∃ val, content key = some val ∧ v = .bytes val := by
    intro key v
    rw [OrderedMap.mem_under, ← encodeHashKey_eq, hh.field, Option.map_eq_some_iff]
    simp only [eq_comm]
  -- no field has the empty key, at which the scan starts
  have hall : (db.under (hashStart name)).filter (fun p => [] < p.1) = db.under (hashStart name) := by
    apply List.filter_eq_self.mpr
    rintro ⟨key, v⟩ hp
    obtain ⟨val, hval, -⟩ := (hmem key v).mp hp
    have hne := (hh.isField key (by rw [hval]; rfl)).key_ne_nil
    obtain ⟨b, t, hcons⟩ := List.exists_cons_of_ne_nil hne
    rw [hcons]
    simp
  have hfields : ∀ key val, (key, val) ∈ (db.under (hashStart name)).map
      (fun p => (p.1, p.2.image)) ↔ content key = some val := by
    intro key val
    rw [List.mem_map]
    constructor
    · rintro ⟨⟨key', v⟩, hp, heq⟩
      obtain ⟨val', hval, rfl⟩ := (hmem key' v).mp hp
      obtain ⟨rfl, rfl⟩ := Prod.mk.inj heq
      exact hval
    · intro hval
      exact ⟨(key, .bytes val), (hmem key _).mpr ⟨val, hval, rfl⟩, rfl⟩
  have hsorted : ((db.under (hashStart name)).map fun p => (p.1, p.2.image)).Pairwise
      fun p q => p.1 < q.1 := by
    rw [List.pairwise_map]
    exact db.under_sorted (hashStart name)
  refine ⟨(db.under (hashStart name)).map fun p => (p.1, p.2.image), ?_, hsorted, ?_, ?_⟩
  · intro limit
    rw [h.hscan_eq hname, hall, List.map_take]
  · intro key val
    rw [hfields, hh.hget_eq]
  · -- both count the keys of the map
    have hkeys : (((db.under (hashStart name)).map fun p => (p.1, p.2.image)).map (·.1)).Perm keys := by
      rw [List.perm_ext_iff_of_nodup _ hh.nodup]
      · intro key
        rw [hh.mem_keys, List.mem_map, Option.isSome_iff_exists]
        constructor
        · rintro ⟨⟨key', val⟩, hp, rfl⟩
          exact ⟨val, (hfields key' val).mp hp⟩
        · rintro ⟨val, hval⟩
          exact ⟨(key, val), (hfields key val).mpr hval, rfl⟩
      · rw [List.Nodup, List.pairwise_map]
        exact hsorted.imp fun hlt => hlt.ne
    rw [hh.hsize_eq, ← hkeys.length_eq, List.length_map]

/-- A name that is too long has no fields, and neither has the empty one. -/
theorem hsize_pos (h : db.AllHashes) (hpos : 0 < hsize db name) : name ≠ [] ∧ IsShort name := by
  obtain ⟨content, keys, hh⟩ := h.hashes name
  rw [hh.hsize_eq] at hpos
  obtain ⟨key, hkey⟩ := List.exists_mem_of_length_pos (by omega : 0 < keys.length)
  have hfield := hh.isField key ((hh.mem_keys key).mp hkey)
  exact ⟨hfield.name_ne_nil, hfield.name_short⟩

/-- The names that `hlist` returns. -/
theorem exists_names (h : db.AllHashes) :
    ∃ names : List Bytes, (∀ limit, hlist db [] [] limit = names.take limit) ∧
      names.Pairwise (· < ·) ∧ ∀ name, name ∈ names ↔ 0 < hsize db name := by
  refine ⟨((db.under [DataType.HSIZE]).filter fun p => [] < p.1).map (·.1), ?_, ?_, ?_⟩
  · intro limit
    rw [hlist, if_pos rfl, encodeHsizeKey, nameIterator_iterator, List.map_take]
  · rw [List.pairwise_map]
    exact (db.under_sorted _).filter _
  · intro name
    have hrecord : ∀ v, db.get ([DataType.HSIZE] ++ name) = some v ↔ db.get (encodeHsizeKey name) = some v :=
      fun v => Iff.rfl
    obtain ⟨content, keys, hh⟩ := h.hashes name
    simp only [List.mem_map, List.mem_filter, decide_eq_true_eq]
    constructor
    · rintro ⟨⟨name', v⟩, ⟨hmem, -⟩, rfl⟩
      rw [OrderedMap.mem_under, hrecord, hh.size] at hmem
      split_ifs at hmem with hnil
      rw [hh.hsize_eq]
      have := List.length_pos_of_ne_nil hnil
      omega
    · intro hpos
      have hne := (h.hsize_pos hpos).1
      obtain ⟨b, t, hcons⟩ := List.exists_cons_of_ne_nil hne
      rw [hh.hsize_eq] at hpos
      have hnil : keys ≠ [] := by
        rintro rfl
        exact absurd hpos (by simp)
      refine ⟨(name, .int keys.length), ⟨?_, by rw [hcons]; simp⟩, rfl⟩
      rw [OrderedMap.mem_under, hrecord, hh.size, if_neg hnil]

end Db.AllHashes

/-! ## `hclear` clears -/

/-- The loop of removals takes the keys out of the map. -/
theorem hdelLoop_spec (name : Bytes) (ks : List Bytes) : ∀ {db : Db} {content : Bytes → Option Bytes}
    {keys : List Bytes}, db.IsHash name content keys → (∀ key ∈ ks, (content key).isSome) → ks.Nodup →
      (hdelLoop name ks db).2.2 = false ∧
        ∃ content' keys', Db.IsHash (hdelLoop name ks db).1 name content' keys' ∧
          keys'.length + ks.length = keys.length := by
  induction ks with
  | nil => intro db content keys h _ _; exact ⟨rfl, content, keys, h, rfl⟩
  | cons key ks ih =>
      intro db content keys h hks hnodup
      rw [List.nodup_cons] at hnodup
      have hold := hks key List.mem_cons_self
      have hret : ¬ (hdel db name key .sync).1 = -1 := by
        have hone := (h.hdel_ret key .sync).mpr (by
          rw [h.hget_eq]
          exact Option.isSome_iff_ne_none.mp hold)
        rw [hone]
        decide
      obtain ⟨hfailed, content', keys', hh', hlength⟩ := ih (h.hdel_spec key .sync) (by
        intro key' hkey'
        have hne : key' ≠ key := by
          rintro rfl
          exact hnodup.1 hkey'
        rw [Function.update_of_ne hne]
        exact hks key' (List.mem_cons_of_mem _ hkey')) hnodup.2
      have hmem : key ∈ keys := (h.mem_keys key).mpr hold
      have herase := List.length_erase_of_mem hmem
      have hpos := List.length_pos_of_mem hmem
      simp only [hdelLoop, if_neg hret]
      refine ⟨hfailed, content', keys', hh', ?_⟩
      rw [List.length_cons]
      omega

/-- The rounds of `hclear` go on until nothing is left; each removes up to 1000 fields. -/
theorem hclearRounds_spec {name : Bytes} (hname : IsShort name) (fuel : ℕ) : ∀ {db : Db} (count : ℤ),
    db.AllHashes → hsize db name < fuel →
      (hclearRounds name fuel count db).2 = count + hsize db name ∧
        hsize (hclearRounds name fuel count db).1 name = 0 := by
  induction fuel with
  | zero =>
      intro db count h hfuel
      obtain ⟨content, keys, hh⟩ := h.hashes name
      rw [hh.hsize_eq] at hfuel
      omega
  | succ fuel ih =>
      intro db count h hfuel
      obtain ⟨fields, hscan, hsorted, hmem, hcount⟩ := h.exists_fields hname
      obtain ⟨content, keys, hh⟩ := h.hashes name
      simp only [hclearRounds, hscan]
      split
      · rename_i hnil
        have hfields : fields = [] := (List.take_eq_nil_iff.mp hnil).resolve_left (by decide)
        rw [hcount, hfields]
        simp
      · rename_i hne
        -- the keys of one round are fields, each once
        obtain ⟨hfailed, content', keys', hh', hlength⟩ :=
          hdelLoop_spec name ((fields.take 1000).map (·.1)) hh (by
            intro key hkey
            obtain ⟨⟨key', val⟩, hp, rfl⟩ := List.mem_map.mp hkey
            rw [← hh.hget_eq, (hmem key' val).mp (List.mem_of_mem_take hp)]
            rfl) (by
            rw [List.Nodup, List.pairwise_map]
            exact (hsorted.sublist (List.take_sublist _ _)).imp fun hlt => hlt.ne)
        have hpos := List.length_pos_of_ne_nil hne
        rw [List.length_map] at hlength
        rw [if_neg (by rw [hfailed]; decide)]
        obtain ⟨hnum, hzero⟩ := ih (count + (fields.take 1000).length)
          (h.hdelLoop name ((fields.take 1000).map (·.1))) (by
            rw [hh'.hsize_eq]
            rw [hh.hsize_eq] at hfuel
            omega)
        refine ⟨?_, hzero⟩
        rw [hnum, hh'.hsize_eq, hh.hsize_eq]
        omega

/-- **`hclear` clears**, and returns the number of fields that there were. -/
theorem hclear_spec {db : Db} (h : db.AllHashes) (name : Bytes) :
    (hclear name db).2 = hsize db name ∧ hsize (hclear name db).1 name = 0 := by
  by_cases hname : IsShort name
  · have hfuel : hsize db name < (db.entries.length + 1 : ℕ) := by
      obtain ⟨fields, hscan, -, -, hcount⟩ := h.exists_fields hname
      have hall := hscan fields.length
      rw [h.hscan_eq hname, List.take_length] at hall
      have hle : fields.length ≤ db.entries.length := by
        rw [← hall, List.length_map]
        calc _ ≤ ((db.under (hashStart name)).filter fun p => [] < p.1).length :=
              (List.take_sublist _ _).length_le
          _ ≤ (db.under (hashStart name)).length := List.length_filter_le _ _
          _ ≤ db.entries.length := by
              rw [OrderedMap.under, List.length_map]
              exact List.length_filter_le _ _
      omega
    obtain ⟨hnum, hzero⟩ := hclearRounds_spec hname _ 0 h hfuel
    exact ⟨by rw [hclear, hnum]; omega, hzero⟩
  · have hsize : hsize db name = 0 := by
      obtain ⟨content, keys, hh⟩ := h.hashes name
      by_contra hne
      rw [hh.hsize_eq] at hne
      exact hname (h.hsize_pos (by rw [hh.hsize_eq]; omega)).2
    have hclear : hclear name db = (db, 0) := by
      simp only [hclear, hclearRounds, hscan]
      rw [if_pos (hIterator_long hname fun p hp => h.keys p.1 p.2 (mem_iterator hp).2.2)]
    rw [hclear, hsize]
    exact ⟨rfl, rfl⟩

/-! ## Bookkeeping -/

/-- **Hash bookkeeping.**  After any commands, for every name of at most 255 bytes the scan lists the
keys that have a value, in order and with that value, and the size is their number; the list of names
consists of those with a positive size.  `hset` inserts exactly the keys that are absent, a refused
call reports an error and writes nothing, and `hdel` removes exactly the keys that are present. -/
theorem hash_bookkeeping (cs : List HashCommand) :
    let db := cs.foldl HashCommand.exec OrderedMap.empty
    (∀ name, IsShort name → ∃ fields : List (Bytes × Bytes),
      (∀ limit, hscan db name [] [] limit = fields.take limit) ∧
        fields.Pairwise (fun p q => p.1 < q.1) ∧
        (∀ key val, (key, val) ∈ fields ↔ hget db name key = some val) ∧
        hsize db name = fields.length) ∧
      (∃ names : List Bytes, (∀ limit, hlist db [] [] limit = names.take limit) ∧
        names.Pairwise (· < ·) ∧ ∀ name, name ∈ names ↔ 0 < hsize db name) ∧
      (∀ name key val logType, IsField name key →
        ((hset db name key val logType).1 = 1 ↔ hget db name key = none)) ∧
      (∀ name key val logType, ¬ IsField name key →
        hset db name key val logType = (-1, []) ∧ hget db name key = none) ∧
      ∀ name key logType, (hdel db name key logType).1 = 1 ↔ hget db name key ≠ none := by
  intro db
  have hall : db.AllHashes := by
    apply List.foldlRecOn (motive := Db.AllHashes) cs
    · exact Db.AllHashes.empty
    · exact fun db h c _ => h.exec c
  refine ⟨fun name hname => hall.exists_fields hname, hall.exists_names, ?_, ?_, ?_⟩
  · intro name key val logType hfield
    rw [hset_ret, if_pos hfield]
    split_ifs with hnone
    · simp [hnone]
    · simp [hnone]
  · intro name key val logType hfield
    obtain ⟨content, keys, hh⟩ := hall.hashes name
    constructor
    · simp only [hset, hsetOne_refused hfield]
      rfl
    · rw [hh.hget_eq]
      by_contra hne
      exact hfield (hh.isField key (Option.isSome_iff_ne_none.mpr hne))
  · intro name key logType
    obtain ⟨content, keys, hh⟩ := hall.hashes name
    exact hh.hdel_ret key logType

end Ssdb
