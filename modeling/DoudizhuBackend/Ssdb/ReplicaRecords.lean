/-
# The records that a slave takes over

Three kinds of records make up the key-value pairs, hashes and sorted sets; the others (sizes and the
second records of members) follow from them.  Every operation on them adds an entry for each such
record that it changes (`Operation.logged`), and every record that the operations store is one that the
operations of a slave accept (`Db.Replicable.record`).
-/
import DoudizhuBackend.LogShipping
import DoudizhuBackend.Ssdb.Replication

namespace Ssdb

/-! ## Records -/

/-- The keys of the records that are carried over. -/
def IsReplicated (k : Bytes) : Prop :=
  k.head? = some DataType.KV ∨ k.head? = some DataType.HASH ∨ k.head? = some DataType.ZSET

instance : DecidablePred IsReplicated := fun _ => inferInstanceAs (Decidable (_ ∨ _ ∨ _))

/-- The key-value pairs, hashes and sorted sets of a database. -/
def Db.content (db : Db) (k : Bytes) : Option Bytes :=
  if IsReplicated k then (db.get k).map Value.image else none

/-- The keys that operations give to such records. -/
inductive IsNamed : Bytes → Prop
  | kv (key : Bytes) : IsNamed (encodeKvKey key)
  | hash {name key : Bytes} (h : IsField name key) : IsNamed (encodeHashKey name key)
  | zset {name key : Bytes} (h : IsField name key) : IsNamed (encodeZsetKey name key)

/-- A record with a name is replicated. -/
theorem IsNamed.isReplicated {k : Bytes} (h : IsNamed k) : IsReplicated k := by
  cases h with
  | kv key => exact Or.inl rfl
  | hash h => exact Or.inr (Or.inl rfl)
  | zset h => exact Or.inr (Or.inr rfl)

/-- A record that the operations of a slave accept: `set` refuses the empty key, and a score is
written in its decimal text. -/
structure IsRecord (k v : Bytes) : Prop where
  named : IsNamed k
  ne_nil : k ≠ encodeKvKey []
  score : k.head? = some DataType.ZSET → ∃ s, IsInt64 s ∧ v = str s

/-- The command of an entry about a record: set, or removed. -/
def entryCommand (sets : Bool) (k : Bytes) : Option BinlogCommand :=
  k.head?.bind fun dataType =>
    if dataType = DataType.KV then some (if sets then .kset else .kdel)
    else if dataType = DataType.HASH then some (if sets then .hset else .hdel)
    else if dataType = DataType.ZSET then some (if sets then .zset else .zdel)
    else none

/-! ## The calls of an operation -/

/-- A call that concerns no record that is carried over. -/
def Write.IsSide : Write → Prop
  | .put k _ => ¬ IsReplicated k
  | .delete k => ¬ IsReplicated k
  | .addLog .. => False

/-- Calls that all set records or all remove them, each with its entry. -/
structure Logged (logType : BinlogType) (sets : Bool) (ws : List Write) : Prop where
  put : ∀ k v, .put k v ∈ ws → IsReplicated k →
    sets = true ∧ ∃ cmd, .addLog logType cmd k ∈ ws
  delete : ∀ k, .delete k ∈ ws → IsReplicated k →
    sets = false ∧ ∃ cmd, .addLog logType cmd k ∈ ws
  log : ∀ type cmd k, .addLog type cmd k ∈ ws →
    type = logType ∧ entryCommand sets k = some cmd ∧ IsNamed k ∧
      if sets then ∃ v, .put k v ∈ ws else .delete k ∈ ws

namespace Logged

variable {logType : BinlogType} {sets : Bool} {ws ws' : List Write}

/-- Writes aside need no entry. -/
theorem side (h : ∀ w ∈ ws, w.IsSide) (logType : BinlogType) (sets : Bool) : Logged logType sets ws where
  put := fun _ _ hw hk => absurd hk (h _ hw)
  delete := fun _ hw hk => absurd hk (h _ hw)
  log := fun _ _ _ hw => (h _ hw).elim

/-- Nothing needs no entry. -/
theorem nil (logType : BinlogType) (sets : Bool) : Logged logType sets [] :=
  side (fun w hw => by cases hw) logType sets

/-- Two lists of logged writes are logged. -/
theorem append (h : Logged logType sets ws) (h' : Logged logType sets ws') :
    Logged logType sets (ws ++ ws') where
  put := by
    intro k v hw hk
    rcases List.mem_append.mp hw with hw | hw
    · obtain ⟨hsets, cmd, hlog⟩ := h.put k v hw hk
      exact ⟨hsets, cmd, List.mem_append_left _ hlog⟩
    · obtain ⟨hsets, cmd, hlog⟩ := h'.put k v hw hk
      exact ⟨hsets, cmd, List.mem_append_right _ hlog⟩
  delete := by
    intro k hw hk
    rcases List.mem_append.mp hw with hw | hw
    · obtain ⟨hsets, cmd, hlog⟩ := h.delete k hw hk
      exact ⟨hsets, cmd, List.mem_append_left _ hlog⟩
    · obtain ⟨hsets, cmd, hlog⟩ := h'.delete k hw hk
      exact ⟨hsets, cmd, List.mem_append_right _ hlog⟩
  log := by
    intro type cmd k hw
    rcases List.mem_append.mp hw with hw | hw
    · obtain ⟨htype, hcmd, hnamed, hcall⟩ := h.log type cmd k hw
      refine ⟨htype, hcmd, hnamed, ?_⟩
      cases sets with
      | true => exact hcall.imp fun v hv => List.mem_append_left _ hv
      | false => exact List.mem_append_left _ hcall
    · obtain ⟨htype, hcmd, hnamed, hcall⟩ := h'.log type cmd k hw
      refine ⟨htype, hcmd, hnamed, ?_⟩
      cases sets with
      | true => exact hcall.imp fun v hv => List.mem_append_right _ hv
      | false => exact List.mem_append_right _ hcall

/-- A write aside may come first. -/
theorem cons_side {w : Write} (hw : w.IsSide) (h : Logged logType sets ws) :
    Logged logType sets (w :: ws) := by
  have hone : Logged logType sets [w] := side (by simpa using hw) logType sets
  exact hone.append h

/-- A list of lists of logged writes is logged. -/
theorem flatMap {α : Type} {f : α → List Write} (h : ∀ x, Logged logType sets (f x)) (xs : List α) :
    Logged logType sets (xs.flatMap f) := by
  induction xs with
  | nil => exact nil logType sets
  | cons x xs ih => exact (h x).append ih

/-- A record that is set. -/
theorem set {k : Bytes} {cmd : BinlogCommand} (hk : IsNamed k) (hcmd : entryCommand true k = some cmd)
    (v : Value) (logType : BinlogType) : Logged logType true [.put k v, .addLog logType cmd k] where
  put := by
    intro k' v' hw _
    obtain ⟨rfl, rfl⟩ : k' = k ∧ v' = v := by simpa using hw
    exact ⟨rfl, cmd, by simp⟩
  delete := by simp
  log := by
    intro type cmd' k' hw
    obtain ⟨rfl, rfl, rfl⟩ : type = logType ∧ cmd' = cmd ∧ k' = k := by simpa using hw
    exact ⟨rfl, hcmd, hk, v, by simp⟩

/-- A record that is removed. -/
theorem remove {k : Bytes} {cmd : BinlogCommand} (hk : IsNamed k)
    (hcmd : entryCommand false k = some cmd) (logType : BinlogType) :
    Logged logType false [.delete k, .addLog logType cmd k] where
  put := by simp
  delete := by
    intro k' hw _
    obtain rfl : k' = k := by simpa using hw
    exact ⟨rfl, cmd, by simp⟩
  log := by
    intro type cmd' k' hw
    obtain ⟨rfl, rfl, rfl⟩ : type = logType ∧ cmd' = cmd ∧ k' = k := by simpa using hw
    exact ⟨rfl, hcmd, hk, by simp⟩

end Logged

/-- Records of other types are not replicated. -/
theorem not_isReplicated_cons {b : Byte}
    (hb : b ≠ DataType.KV ∧ b ≠ DataType.HASH ∧ b ≠ DataType.ZSET) (k : Bytes) :
    ¬ IsReplicated (b :: k) := by
  rintro (h | h | h)
  · exact hb.1 (Option.some.inj h)
  · exact hb.2.1 (Option.some.inj h)
  · exact hb.2.2 (Option.some.inj h)

/-- The size of a hash is aside. -/
theorem side_incrHsize (db : Db) (name : Bytes) (incr : ℤ) : ∀ w ∈ incrHsize db name incr, w.IsSide := by
  intro w hw
  unfold incrHsize at hw
  dsimp only at hw
  split at hw <;> rw [List.mem_singleton.mp hw] <;> exact not_isReplicated_cons (by decide) name

/-- The size of a sorted set is aside. -/
theorem side_incrZsize (db : Db) (name : Bytes) (incr : ℤ) : ∀ w ∈ incrZsize db name incr, w.IsSide := by
  intro w hw
  unfold incrZsize at hw
  dsimp only at hw
  split at hw <;> rw [List.mem_singleton.mp hw] <;> exact not_isReplicated_cons (by decide) name

/-- An entry by score is aside. -/
theorem side_put_zscore (name key score : Bytes) (v : Value) :
    (Write.put (encodeZscoreKey name key score) v).IsSide :=
  not_isReplicated_cons (by decide) _

/-- And so is its deletion. -/
theorem side_delete_zscore (name key score : Bytes) :
    (Write.delete (encodeZscoreKey name key score)).IsSide :=
  not_isReplicated_cons (by decide) _

/-! ## Every operation logs what it changes -/

section Operations

variable (db : Db) (name key : Bytes) (logType : BinlogType)

/-- A value with its entry is logged. -/
theorem logged_kset (v : Value) :
    Logged logType true [.put (encodeKvKey key) v, .addLog logType .kset (encodeKvKey key)] :=
  .set (.kv key) rfl v logType

/-- A deletion with its entry is logged. -/
theorem logged_kdel :
    Logged logType false [.delete (encodeKvKey key), .addLog logType .kdel (encodeKvKey key)] :=
  .remove (.kv key) rfl logType

/-- `hset` is logged. -/
theorem logged_hsetWrites (val : Bytes) : Logged logType true (hsetWrites db name key val logType) := by
  by_cases hfield : IsField name key
  · have hset : Logged logType true [.put (encodeHashKey name key) (.bytes val),
        .addLog logType .hset (encodeHashKey name key)] := .set (.hash hfield) rfl _ logType
    simp only [hsetWrites, hsetOne_field hfield]
    cases hget db name key with
    | none => exact hset.append (.side (side_incrHsize db name _) logType true)
    | some old =>
        by_cases hsame : old = val
        · simp [hsame, Logged.nil]
        · simpa [hsame] using hset
  · simp [hsetWrites, hsetOne_refused hfield, Logged.nil]

/-- `zset` is logged. -/
theorem logged_zsetWrites (score : Bytes) :
    Logged logType true (zsetWrites db name key score logType) := by
  by_cases hvalid : name ≠ [] ∧ key ≠ [] ∧ IsShort name ∧ IsShort key
  · have hfield : IsField name key := ⟨hvalid.1, hvalid.2.1, hvalid.2.2.1, hvalid.2.2.2⟩
    obtain ⟨hempty, hlong⟩ := (isField_iff name key).mp hfield
    have hput : Logged logType true [.put (encodeZscoreKey name key (filterScore score)) (.bytes []),
        .put (encodeZsetKey name key) (.bytes (filterScore score)),
        .addLog logType .zset (encodeZsetKey name key)] :=
      .cons_side (side_put_zscore name key _ _) (.set (.zset hfield) rfl _ logType)
    simp only [zsetWrites, zsetOne, if_neg hempty, if_neg hlong]
    cases zget db name key with
    | none => exact hput.append (.side (side_incrZsize db name _) logType true)
    | some old =>
        by_cases hsame : old = filterScore score
        · simp [hsame, Logged.nil]
        · have hboth := hput.cons_side (side_delete_zscore name key old)
          simpa [hsame] using hboth
  · rw [zsetWrites_invalid hvalid]
    exact .nil logType true

/-- The key of a member record is that of a name and a key that `zset` accepts. -/
def IsMemberRecordKey (k : Bytes) : Prop :=
  k.head? = some DataType.ZSET → ∃ name key, IsField name key ∧ k = encodeZsetKey name key

variable {db}

/-- `hdel` is logged. -/
theorem logged_hdel (hdb : db.AllHashes) : Logged logType false (hdel db name key logType).2 := by
  by_cases hshort : IsShort name ∧ IsShort key
  · obtain ⟨content, keys, hh⟩ := hdb.hashes name
    rw [hdel_short hshort.1 hshort.2, hh.hget_eq]
    cases hold : content key with
    | none => exact .nil logType false
    | some old =>
        have hfield : IsField name key := hh.isField key (by rw [hold]; rfl)
        exact (Logged.remove (.hash hfield) rfl logType).append
          (.side (side_incrHsize db name _) logType false)
  · rw [hdel, hdelOne_long hshort]
    exact .nil logType false

/-- `zdel` is logged. -/
theorem logged_zdel (hdb : db.Keys IsMemberRecordKey) :
    Logged logType false (zdel db name key logType).2 := by
  by_cases hshort : IsShort name ∧ IsShort key
  · rw [zdel_writes hshort.1 hshort.2]
    cases hold : zget db name key with
    | none => exact .nil logType false
    | some old =>
        have hfield : IsField name key := by
          obtain ⟨v, hv, -⟩ := Option.map_eq_some_iff.mp hold
          obtain ⟨name', key', hfield, hkey⟩ := hdb _ v hv rfl
          obtain ⟨rfl, rfl⟩ := encodeZsetKey_inj hshort.1 hshort.2 hkey
          exact hfield
        apply Logged.cons_side (side_delete_zscore name key old)
        exact (Logged.remove (.zset hfield) rfl logType).append
          (.side (side_incrZsize db name _) logType false)
  · rw [zdel_long hshort]
    exact .nil logType false

end Operations

/-- **Every operation on key-value pairs, hashes and sorted sets logs what it changes.** -/
theorem Operation.logged {db : Db} (hhashes : db.AllHashes) (hmembers : db.Keys IsMemberRecordKey)
    {op : Operation} (hop : op.family ≠ .queue) (logType : BinlogType) :
    ∃ sets, Logged logType sets (op.writes db logType) := by
  cases op with
  | set key val =>
      refine ⟨true, ?_⟩
      simp only [writes, Kv.set]
      split
      · exact .nil logType true
      · exact logged_kset key logType _
  | setnx key val =>
      refine ⟨true, ?_⟩
      simp only [writes, Kv.setnx]
      split
      · exact .nil logType true
      · split
        · exact .nil logType true
        · exact logged_kset key logType _
  | getset key newval =>
      refine ⟨true, ?_⟩
      simp only [writes, Kv.getset]
      split
      · exact .nil logType true
      · exact logged_kset key logType _
  | setbit key offset on =>
      refine ⟨true, ?_⟩
      simp only [writes, Kv.setbit]
      split
      · exact .nil logType true
      · exact logged_kset key logType _
  | incr key by_ =>
      refine ⟨true, ?_⟩
      simp only [writes, Kv.incr]
      split
      · exact .nil logType true
      · exact logged_kset key logType _
  | del key => exact ⟨false, logged_kdel key logType⟩
  | multiSet kvs =>
      refine ⟨true, ?_⟩
      simp only [writes, Kv.multiSet]
      split
      · exact .nil logType true
      · exact .flatMap (fun kv => logged_kset kv.1 logType _) kvs
  | multiDel keys => exact ⟨false, .flatMap (fun key => logged_kdel key logType) keys⟩
  | hset name key val =>
      refine ⟨true, ?_⟩
      simp only [writes, hset_writes]
      exact logged_hsetWrites db name key logType val
  | hdel name key => exact ⟨false, logged_hdel name key logType hhashes⟩
  | hincr name key by_ =>
      refine ⟨true, ?_⟩
      simp only [writes, hincr_writes]
      split
      · exact .nil logType true
      · exact logged_hsetWrites db name key logType _
  | zset name key score =>
      refine ⟨true, ?_⟩
      simp only [writes, zset_writes]
      exact logged_zsetWrites db name key logType score
  | zdel name key => exact ⟨false, logged_zdel name key logType hmembers⟩
  | zincr name key by_ =>
      refine ⟨true, ?_⟩
      simp only [writes, zincr_writes]
      exact logged_zsetWrites db name key logType _
  | _ => exact absurd rfl hop

/-! ## What logged calls leave -/

/-- The content of a replicated record is its text. -/
theorem Db.content_of_isReplicated {k : Bytes} (hk : IsReplicated k) (db : Db) :
    db.content k = (db.get k).map Value.image := if_pos hk

/-- Other records have no content. -/
theorem Db.content_of_not {k : Bytes} (hk : ¬ IsReplicated k) (db : Db) : db.content k = none :=
  if_neg hk

/-- The content depends on the replicated records. -/
theorem Db.content_congr {db db' : Db} (h : ∀ k, IsReplicated k → db'.get k = db.get k) :
    db'.content = db.content := by
  funext k
  by_cases hk : IsReplicated k
  · rw [Db.content_of_isReplicated hk, Db.content_of_isReplicated hk, h k hk]
  · rw [Db.content_of_not hk, Db.content_of_not hk]

/-- A key that is put, and not removed, has a value. -/
theorem isSome_get_apply {k : Bytes} {ws : List Write} (hdelete : .delete k ∉ ws) :
    ∀ {db : Db}, (∃ v, .put k v ∈ ws) ∨ (db.get k).isSome → ((db.apply ws).get k).isSome := by
  induction ws with
  | nil =>
      rintro db (⟨v, hv⟩ | h)
      · cases hv
      · exact h
  | cons w ws ih =>
      intro db h
      have ih := @ih fun hmem => hdelete (List.mem_cons_of_mem _ hmem)
      cases w with
      | put l v =>
          apply ih
          by_cases hl : k = l
          · rw [hl, Db.get_write_self]
            exact Or.inr rfl
          · rw [Db.get_write_of_ne hl]
            simpa [hl] using h
      | delete l =>
          apply ih
          rw [Db.get_write_of_ne]
          · simpa using h
          · rintro rfl
            exact hdelete List.mem_cons_self
      | addLog type cmd key => exact ih (by simpa using h)

/-- A key that is removed, and not put, has none. -/
theorem get_apply_eq_none {k : Bytes} {ws : List Write} (hput : ∀ v, .put k v ∉ ws) :
    ∀ {db : Db}, .delete k ∈ ws ∨ db.get k = none → (db.apply ws).get k = none := by
  induction ws with
  | nil =>
      rintro db (h | h)
      · cases h
      · exact h
  | cons w ws ih =>
      intro db h
      have ih := @ih fun v hmem => hput v (List.mem_cons_of_mem _ hmem)
      cases w with
      | put l v =>
          apply ih
          rw [Db.get_write_of_ne]
          · simpa using h
          · rintro rfl
            exact hput v List.mem_cons_self
      | delete l =>
          apply ih
          by_cases hl : k = l
          · rw [hl, Db.get_write_self]
            exact Or.inr rfl
          · rw [Db.get_write_of_ne hl]
            simpa [hl] using h
      | addLog type cmd key => exact ih (by simpa using h)

namespace Logged

variable {logType : BinlogType} {sets : Bool} {ws : List Write} {k : Bytes}

/-- An entry tells whether its key has a value. -/
theorem tells (h : Logged logType sets ws) {type : BinlogType} {cmd : BinlogCommand}
    (hlog : .addLog type cmd k ∈ ws) (db : Db) : sets = (Db.content (db.apply ws) k).isSome := by
  obtain ⟨-, -, hnamed, hcall⟩ := h.log type cmd k hlog
  have hk := hnamed.isReplicated
  rw [Db.content_of_isReplicated hk, Option.isSome_map]
  cases sets with
  | true =>
      refine (isSome_get_apply (fun hmem => ?_) (Or.inl hcall)).symm
      exact Bool.noConfusion (h.delete k hmem hk).1
  | false =>
      rw [get_apply_eq_none (fun v hmem => ?_) (Or.inl hcall)]
      · rfl
      · exact Bool.noConfusion (h.put k v hmem hk).1

/-- What changes has an entry. -/
theorem exists_log (h : Logged logType sets ws) {db : Db}
    (hne : Db.content (db.apply ws) k ≠ db.content k) : ∃ cmd, .addLog logType cmd k ∈ ws := by
  by_cases hk : IsReplicated k
  · by_contra hnone
    apply hne
    rw [Db.content_of_isReplicated hk, Db.content_of_isReplicated hk]
    congr 1
    -- no call names the key
    apply get_apply_of_onKeys (P := fun l => l ≠ k) _ (fun hne => hne rfl)
    intro w hw
    cases w with
    | put l v =>
        rintro rfl
        exact hnone (h.put l v hw hk).2
    | delete l =>
        rintro rfl
        exact hnone (h.delete l hw hk).2
    | addLog type cmd key => trivial
  · rw [Db.content_of_not hk, Db.content_of_not hk] at hne
    exact absurd rfl hne

end Logged

/-! ## What the operations store -/

/-- A key of the data: one of a container, and a member record under its own name. -/
def IsDataKey (k : Bytes) : Prop :=
  k.head? ≠ some DataType.SYNCLOG → (∃ f : Family, f.Holds k) ∧ IsMemberRecordKey k

/-- The records of the families are no log entries. -/
theorem Family.head_ne_synclog {f : Family} {k : Bytes} (h : f.Holds k) :
    k.head? ≠ some DataType.SYNCLOG := by
  intro hhead
  have := Family.familyOf_eq h
  rw [hhead] at this
  revert this
  cases f <;> decide

/-- What the operations reach, whatever the binlog in the same database holds. -/
structure Db.Stored (db : Db) : Prop where
  store : db.IsStore
  keys : db.Keys IsDataKey

namespace Db.Stored

variable {db db' : Db}

/-- The records of members are those of short names. -/
theorem members (h : db.Stored) : db.Keys IsMemberRecordKey := by
  intro k v hget hhead
  exact (h.keys k v hget (by rw [hhead]; decide)).2 hhead

/-- The empty store is one. -/
theorem empty : Db.Stored OrderedMap.empty :=
  ⟨isStore_run [], .empty⟩

/-- The entries of the binlog do not matter. -/
theorem congr (h : db.Stored) (hget : ∀ k, k.head? ≠ some DataType.SYNCLOG → db'.get k = db.get k) :
    db'.Stored where
  store :=
    { hashes := h.store.hashes.congr fun k hk => hget k (Family.head_ne_synclog hk)
      zsets := h.store.zsets.congr fun k hk => hget k (Family.head_ne_synclog hk)
      scores := by
        intro k v hk hhead
        rw [hget k (by rw [hhead]; decide)] at hk
        exact h.store.scores k v hk hhead
      queues := h.store.queues.congr fun k hk => hget k (Family.head_ne_synclog hk) }
  keys := by
    intro k v hk hhead
    rw [hget k hhead] at hk
    exact h.keys k v hk hhead

/-- An operation keeps the store one. -/
theorem write (h : db.Stored) (op : Operation) (logType : BinlogType) :
    Db.Stored (db.apply (op.writes db logType)) where
  store := h.store.step (.write op logType)
  keys := by
    refine h.keys.apply fun w hw => ?_
    cases w with
    | put k v =>
        have hholds : op.family.Holds k := op.onFamily db logType _ hw
        refine fun _ => ⟨⟨_, hholds⟩, fun hhead => ?_⟩
        by_cases hqueue : op.family = .queue
        · rw [hqueue] at hholds
          exact absurd (Family.eq_of_holds hholds (show Family.zset.Holds k from Or.inl hhead))
            (by decide)
        · -- the entry of the record names its member
          obtain ⟨sets, hlogged⟩ := Operation.logged h.store.hashes h.members hqueue logType
          obtain ⟨-, cmd, hlog⟩ := hlogged.put k v hw (Or.inr (Or.inr hhead))
          have hnamed := (hlogged.log _ _ _ hlog).2.2.1
          cases hnamed with
          | kv key =>
              exact absurd (show some DataType.KV = some DataType.ZSET from hhead) (by decide)
          | hash hfield =>
              exact absurd (show some DataType.HASH = some DataType.ZSET from hhead) (by decide)
          | zset hfield => exact ⟨_, _, hfield, rfl⟩
    | _ => trivial

/-- Every store that is reached is one. -/
theorem run (steps : List StoreStep) : Db.Stored (steps.foldl Db.step OrderedMap.empty) := by
  apply List.foldlRecOn (motive := Db.Stored) steps
  · exact empty
  · intro db h s _
    cases s with
    | write op logType => exact h.write op logType
    | flushdb => exact empty

/-- **Every record is one that the operations of a slave accept**, but for a value with the empty
key. -/
theorem record (h : db.Stored) {k v : Bytes} (hk : db.content k = some v) (hne : k ≠ encodeKvKey []) :
    IsRecord k v := by
  have hrep : IsReplicated k := by
    by_contra hnot
    rw [Db.content_of_not hnot] at hk
    cases hk
  rw [Db.content_of_isReplicated hrep] at hk
  obtain ⟨w, hw, rfl⟩ := Option.map_eq_some_iff.mp hk
  rcases hrep with hhead | hhead | hhead
  · obtain ⟨key, rfl⟩ : ∃ key, k = encodeKvKey key := ⟨k.tail, List.eq_cons_of_mem_head? hhead⟩
    exact ⟨.kv key, hne, fun hz => absurd hz (by rw [hhead]; decide)⟩
  · obtain ⟨name, key, hfield, rfl⟩ := h.store.hashes.keys k w hw hhead
    exact ⟨.hash hfield, hne, fun hz => absurd hz (by rw [hhead]; decide)⟩
  · obtain ⟨name, key, hfield, rfl⟩ := h.members k w hw hhead
    refine ⟨.zset hfield, hne, fun _ => ?_⟩
    obtain ⟨content, keys, hz⟩ := h.store.zsets name
    rw [hz.member] at hw
    obtain ⟨s, hs, rfl⟩ := Option.map_eq_some_iff.mp hw
    exact ⟨s, hz.isInt64 key s hs, rfl⟩

end Db.Stored

/-- A value that is written has a key. -/
theorem puts_kset {key : Bytes} (hkey : key ≠ []) (v : Value) (logType : BinlogType)
    {w : Write} (hw : w ∈ [Write.put (encodeKvKey key) v, .addLog logType .kset (encodeKvKey key)]) :
    w.Puts (· ≠ encodeKvKey []) := by
  simp only [List.mem_cons, List.not_mem_nil, or_false] at hw
  rcases hw with rfl | rfl
  · exact fun heq => hkey (encodeKvKey_inj heq)
  · trivial

/-- Only `incr` stores a value under the empty key. -/
theorem Operation.puts_ne_nil {op : Operation} (hop : ∀ by_, op ≠ .incr [] by_) (db : Db)
    (logType : BinlogType) : ∀ w ∈ op.writes db logType, w.Puts (· ≠ encodeKvKey []) := by
  intro w hw
  by_cases hf : op.family = .kv
  · cases op with
    | set key val =>
        simp only [writes, Kv.set] at hw
        split at hw
        · cases hw
        · exact puts_kset ‹_› _ logType hw
    | setnx key val =>
        simp only [writes, Kv.setnx] at hw
        split at hw
        · cases hw
        · split at hw
          · cases hw
          · exact puts_kset ‹_› _ logType hw
    | getset key newval =>
        simp only [writes, Kv.getset] at hw
        split at hw
        · cases hw
        · exact puts_kset ‹_› _ logType hw
    | setbit key offset on =>
        simp only [writes, Kv.setbit] at hw
        split at hw
        · cases hw
        · exact puts_kset ‹_› _ logType hw
    | incr key by_ =>
        simp only [writes, Kv.incr] at hw
        split at hw
        · cases hw
        · refine puts_kset ?_ _ logType hw
          rintro rfl
          exact hop by_ rfl
    | del key =>
        simp only [writes, Kv.del, List.mem_cons, List.not_mem_nil, or_false] at hw
        rcases hw with rfl | rfl <;> trivial
    | multiSet kvs =>
        simp only [writes, Kv.multiSet] at hw
        split at hw
        · cases hw
        · rename_i hkeys
          obtain ⟨kv, hkv, hw⟩ := List.mem_flatMap.mp hw
          exact puts_kset (fun hnil => hkeys ⟨kv, hkv, hnil⟩) _ logType hw
    | multiDel keys =>
        simp only [writes, Kv.multiDel] at hw
        obtain ⟨key, -, hw⟩ := List.mem_flatMap.mp hw
        simp only [List.mem_cons, List.not_mem_nil, or_false] at hw
        rcases hw with rfl | rfl <;> trivial
    | _ => cases hf
  · refine (op.onFamily db logType w hw).puts ?_
    rintro k hk rfl
    exact hf (Family.eq_of_holds hk (show Family.kv.Holds (encodeKvKey []) from rfl))

end Ssdb
