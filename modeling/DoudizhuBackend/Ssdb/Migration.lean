/-
# Moving keys from one server to another

`ssdb-master/src/cluster_migrate.cpp`, with the commands on key-value pairs of `proc_kv.cpp` and the
key range of a server (`serv.cpp`, `CHECK_KV_KEY_RANGE` of `serv.h`).

`migrate_kv_data` lists the first keys of `src`, takes them out of the key range of `src`, and then
moves each by a `get`, a `set` on `dst` and a `del`.  Clients go on with their commands in between.
An acknowledged write stays on one of the two servers (`migration_keeps_writes`) as long as writes
keep away from what is being moved.  `set` is kept away by the key range; `multi_set` is not
(`write_lost_in_migration`).
-/
import DoudizhuBackend.Ssdb.Cluster
import DoudizhuBackend.Ssdb.Ttl

namespace Ssdb

/-! ## A server and its key range -/

/-- `SSDBServer`, as far as key-value pairs go: the store with its expirations, and the range it serves. -/
structure SsdbServer where
  expiration : ExpirationHandler
  kvRange : KeyRange

/-- A write of a client to key-value pairs. -/
inductive KvCommand where
  | set (key val : Bytes)
  | del (key : Bytes)
  | multiSet (kvs : List (Bytes × Bytes))
  | multiDel (keys : List Bytes)

namespace SsdbServer

/-- `in_kv_range`: the first bound is outside, the last one inside; an empty bound is open. -/
def inKvRange (serv : SsdbServer) (key : Bytes) : Prop :=
  ¬ ((serv.kvRange.first ≠ [] ∧ key ≤ serv.kvRange.first) ∨
    (serv.kvRange.last ≠ [] ∧ serv.kvRange.last < key))

instance (serv : SsdbServer) : DecidablePred serv.inKvRange :=
  fun _ => inferInstanceAs (Decidable (¬ (_ ∨ _)))

/-- `set_kv_range`. -/
def setKvRange (serv : SsdbServer) (first last : Bytes) : SsdbServer :=
  { serv with kvRange := ⟨first, last⟩ }

/-- The value that the server stores. -/
def get (serv : SsdbServer) : Bytes → Option Bytes := Kv.get serv.expiration.db

/-- The server after a step of its store. -/
def handle (serv : SsdbServer) (l : ExpirationHandler.Step) : SsdbServer :=
  { serv with expiration := serv.expiration.step l }

/-- `CHECK_KV_KEY_RANGE` in front of a command; `ignored` on links that sent `ignore_key_range`. -/
def checkKvKeyRange (serv : SsdbServer) (ignored : Bool) (key : Bytes)
    (proc : SsdbServer × List Bytes) : SsdbServer × List Bytes :=
  if ignored = false ∧ ¬ serv.inKvRange key then (serv, [ascii "out_of_range"]) else proc

/-- `proc_set`. -/
def procSet (serv : SsdbServer) (ignored : Bool) (key val : Bytes) : SsdbServer × List Bytes :=
  serv.checkKvKeyRange ignored key (serv.handle (.set key val), [ascii "ok", ascii "1"])

/-- `proc_del`. -/
def procDel (serv : SsdbServer) (ignored : Bool) (key : Bytes) : SsdbServer × List Bytes :=
  serv.checkKvKeyRange ignored key (serv.handle (.del key), [ascii "ok", ascii "1"])

/-- `proc_multi_set`: without `CHECK_KV_KEY_RANGE`. -/
def procMultiSet (serv : SsdbServer) (kvs : List (Bytes × Bytes)) : SsdbServer × List Bytes :=
  if kvs = [] then (serv, [ascii "client_error"])
  else (serv.handle (.multiSet kvs), replyInt 0 (Kv.multiSet kvs .sync).1)

/-- `proc_multi_del`: without `CHECK_KV_KEY_RANGE`. -/
def procMultiDel (serv : SsdbServer) (keys : List Bytes) : SsdbServer × List Bytes :=
  if keys = [] then (serv, [ascii "client_error", ascii "wrong number of arguments"])
  else (serv.handle (.multiDel keys), replyInt 0 (Kv.multiDel keys .sync).1)

/-- `proc_multi_get`. -/
def procMultiGet (serv : SsdbServer) (keys : List Bytes) : List Bytes :=
  ascii "ok" :: keys.flatMap fun key =>
    match serv.get key with
    | none => []
    | some val => [key, val]

/-- The keys that `proc_keys` answers with. -/
def procKeys (serv : SsdbServer) (first last : Bytes) (limit : ℕ) : List Bytes :=
  (Kv.scan serv.expiration.db first last limit).map (·.1)

/-- A command on a link without `ignore_key_range`. -/
def run (serv : SsdbServer) : KvCommand → SsdbServer × List Bytes
  | .set key val => serv.procSet false key val
  | .del key => serv.procDel false key
  | .multiSet kvs => serv.procMultiSet kvs
  | .multiDel keys => serv.procMultiDel keys

/-- The server answers the write with `ok`. -/
def Acknowledges (serv : SsdbServer) (c : KvCommand) : Prop :=
  (serv.run c).2.head? = some (ascii "ok")

instance (serv : SsdbServer) : DecidablePred serv.Acknowledges :=
  fun _ => inferInstanceAs (Decidable (_ = _))

end SsdbServer

/-! ## The migration -/

/-- Where `migrate_kv_data` stands: the request that it sends next. -/
inductive MigrateState where
  /-- `keys` on `src`. -/
  | list
  /-- `set_kv_range` on `src`. -/
  | lock (keys : List Bytes)
  /-- `get` of the first of the keys on `src`, or `keys` when none is left. -/
  | move (keys : List Bytes) (bytes : ℕ)
  /-- `set` on `dst`. -/
  | copy (key val : Bytes) (keys : List Bytes) (bytes : ℕ)
  /-- `del` on `src`. -/
  | remove (key val : Bytes) (keys : List Bytes) (bytes : ℕ)
  /-- `set_kv_range` on `dst`. -/
  | publish (bytes : ℕ)
  | done (ret : ℤ)
  deriving DecidableEq

/-- A migration: the two servers, and how far it has come. -/
structure Migration where
  src : SsdbServer
  dst : SsdbServer
  /-- The ranges of the two nodes in the books of the cluster. -/
  srcRange : KeyRange
  dstRange : KeyRange
  numKeys : ℤ
  movedMaxKey : Bytes
  state : MigrateState

/-- A command of a client at either server, or the next step of the migration. -/
inductive MigrationStep where
  | src (c : KvCommand)
  | dst (c : KvCommand)
  /-- The next request of the migration. -/
  | migrate
  /-- A request of the migration fails, and it returns -1. -/
  | fail

namespace Migration

/-- An `int` as a `uint64_t`. -/
def limit (m : Migration) : ℕ := (m.numKeys % 2 ^ 64).toNat

/-- One request of `migrate_kv_data`, `move_range` and `move_key`, and what follows from its reply. -/
def migrate (m : Migration) : Migration :=
  match m.state with
  | .list =>
      let keys := m.src.procKeys [] m.srcRange.last m.limit
      if keys = [] then { m with state := .done 0 }
      else { m with movedMaxKey := keys.getLastD [], state := .lock keys }
  | .lock keys =>
      { m with src := m.src.setKvRange m.movedMaxKey m.srcRange.last, state := .move keys 0 }
  | .move (key :: keys) bytes =>
      match m.src.get key with
      | none => { m with state := .move keys bytes }
      | some val => { m with state := .copy key val keys bytes }
  | .copy key val keys bytes =>
      { m with dst := (m.dst.procSet true key val).1, state := .remove key val keys bytes }
  | .remove key val keys bytes =>
      { m with
        src := (m.src.procDel true key).1
        state := .move keys (bytes + (key.length + val.length)) }
  | .move [] bytes =>
      let keys := m.src.procKeys [] m.movedMaxKey m.limit
      if keys ≠ [] then { m with state := .move keys bytes }
      else if bytes = 0 then { m with state := .done 0 }
      else { m with state := .publish bytes }
  | .publish bytes =>
      { m with dst := m.dst.setKvRange m.dstRange.first m.movedMaxKey, state := .done bytes }
  | .done ret => { m with state := .done ret }

/-- The migration gives up, unless it is done. -/
def fail (m : Migration) : Migration :=
  match m.state with
  | .done _ => m
  | _ => { m with state := .done (-1) }

/-- The servers and the migration after a step. -/
def step (m : Migration) : MigrationStep → Migration
  | .src c => { m with src := (m.src.run c).1 }
  | .dst c => { m with dst := (m.dst.run c).1 }
  | .migrate => m.migrate
  | .fail => m.fail

/-- The client command that a step acknowledges. -/
def acknowledged (m : Migration) : MigrationStep → Option KvCommand
  | .src c => if m.src.Acknowledges c then some c else none
  | .dst c => if m.dst.Acknowledges c then some c else none
  | _ => none

end Migration

namespace KvCommand

/-- What a command does to the values of the keys. -/
def effect (c : KvCommand) (m : Bytes → Option Bytes) : Bytes → Option Bytes :=
  match c with
  | .set key val => Function.update m key (some val)
  | .del key => Function.update m key none
  | .multiSet kvs => kvs.foldl (fun m kv => Function.update m kv.1 (some kv.2)) m
  | .multiDel keys => keys.foldl (fun m key => Function.update m key none) m

/-- The keys that a command gives a value. -/
def written : KvCommand → List Bytes
  | .set key _ => [key]
  | .multiSet kvs => kvs.map (·.1)
  | _ => []

/-- The value of every key by the last command on it, if that is a write. -/
def outstanding (cs : List KvCommand) : Bytes → Option Bytes :=
  cs.foldl (fun m c => c.effect m) fun _ => none

end KvCommand

/-! ## What commands do -/

namespace KvCommand

/-- The last one of several updates decides, if there is one. -/
theorem foldl_update_cases {α : Type} (f : α → Bytes) (g : α → Option Bytes) (key : Bytes) :
    ∀ as : List α,
      (∃ a ∈ as, f a = key ∧ ∀ m : Bytes → Option Bytes,
        as.foldl (fun m a => Function.update m (f a) (g a)) m key = g a) ∨
      ∀ m : Bytes → Option Bytes, as.foldl (fun m a => Function.update m (f a) (g a)) m key = m key
  | [] => Or.inr fun _ => rfl
  | a :: as => by
      -- the last entry for the key decides, so the tail is looked at first
      rcases foldl_update_cases f g key as with ⟨b, hb, hkey, htail⟩ | htail
      · exact Or.inl ⟨b, List.mem_cons_of_mem _ hb, hkey, fun m => htail _⟩
      · rcases eq_or_ne (f a) key with hkey | hne
        · refine Or.inl ⟨a, List.mem_cons_self, hkey, fun m => ?_⟩
          rw [List.foldl_cons, htail, hkey, Function.update_self]
        · refine Or.inr fun m => ?_
          rw [List.foldl_cons, htail, Function.update_of_ne hne.symm]

/-- A command gives a key a value, removes it, or leaves it alone, whatever was there before. -/
theorem effect_cases (c : KvCommand) (key : Bytes) :
    (key ∈ c.written ∧ ∃ val, ∀ m, c.effect m key = some val) ∨ (∀ m, c.effect m key = none) ∨
      ∀ m, c.effect m key = m key := by
  cases c with
  | set key' val =>
      rcases eq_or_ne key key' with rfl | hne
      · exact Or.inl ⟨List.mem_singleton_self _, val, fun m => Function.update_self _ _ _⟩
      · exact Or.inr (Or.inr fun m => Function.update_of_ne hne _ _)
  | del key' =>
      rcases eq_or_ne key key' with rfl | hne
      · exact Or.inr (Or.inl fun m => Function.update_self _ _ _)
      · exact Or.inr (Or.inr fun m => Function.update_of_ne hne _ _)
  | multiSet kvs =>
      rcases foldl_update_cases (fun kv : Bytes × Bytes => kv.1) (fun kv => some kv.2) key kvs with
        ⟨kv, hkv, rfl, hval⟩ | hsame
      · exact Or.inl ⟨List.mem_map_of_mem hkv, kv.2, hval⟩
      · exact Or.inr (Or.inr hsame)
  | multiDel keys =>
      rcases foldl_update_cases (fun k : Bytes => k) (fun _ => none) key keys with
        ⟨k, -, -, hnone⟩ | hsame
      · exact Or.inr (Or.inl hnone)
      · exact Or.inr (Or.inr hsame)

end KvCommand

namespace ExpirationHandler

variable (h : ExpirationHandler)

/-- The end of an expiration keeps the values. -/
theorem kvGet_delTtl (key : Bytes) : Kv.get (h.delTtl key).db = Kv.get h.db := by
  rw [delTtl]
  split
  · rfl
  · funext key'
    exact kvGet_apply_zset (onMember_zdel _ _ _ _) key'

/-- So do several of them. -/
theorem kvGet_foldl_delTtl (keys : List Bytes) : ∀ h : ExpirationHandler,
    Kv.get (keys.foldl delTtl h).db = Kv.get h.db := by
  induction keys with
  | nil => exact fun h => rfl
  | cons key keys ih => exact fun h => (ih _).trans (kvGet_delTtl h key)

end ExpirationHandler

namespace SsdbServer

variable (serv : SsdbServer)

/-- `set` is an update of the values of a server. -/
theorem get_handle_set {key : Bytes} (hkey : key ≠ []) (val : Bytes) :
    (serv.handle (.set key val)).get = Function.update serv.get key (some val) :=
  Kv.get_apply_set _ hkey val .sync

/-- So is `del`. -/
theorem get_handle_del (key : Bytes) :
    (serv.handle (.del key)).get = Function.update serv.get key none := by
  show Kv.get (ExpirationHandler.delTtl _ key).db = _
  rw [ExpirationHandler.kvGet_delTtl]
  exact Kv.get_apply_del _ key .sync

theorem outOfRange_ne_ok : some (ascii "out_of_range") ≠ some (ascii "ok") := by decide

theorem clientError_ne_ok : some (ascii "client_error") ≠ some (ascii "ok") := by decide

/-- What a server does with a command: refuse it, or acknowledge and execute it. -/
theorem run_cases (c : KvCommand) (hkeys : serv.Acknowledges c → ∀ key ∈ c.written, key ≠ []) :
    (serv.run c).1.kvRange = serv.kvRange ∧
      ((serv.Acknowledges c ∧ (serv.run c).1.get = c.effect serv.get) ∨
        (¬ serv.Acknowledges c ∧ (serv.run c).1 = serv)) := by
  cases c with
  | set key val =>
      rw [Acknowledges, run, procSet, checkKvKeyRange] at *
      split
      · exact ⟨rfl, Or.inr ⟨outOfRange_ne_ok, rfl⟩⟩
      · rename_i hin
        rw [if_neg hin] at hkeys
        refine ⟨rfl, Or.inl ⟨rfl, ?_⟩⟩
        exact serv.get_handle_set (hkeys rfl key (List.mem_singleton_self _)) val
  | del key =>
      rw [Acknowledges, run, procDel, checkKvKeyRange]
      split
      · exact ⟨rfl, Or.inr ⟨outOfRange_ne_ok, rfl⟩⟩
      · exact ⟨rfl, Or.inl ⟨rfl, serv.get_handle_del key⟩⟩
  | multiSet kvs =>
      rw [Acknowledges, run, procMultiSet] at *
      split
      · exact ⟨rfl, Or.inr ⟨clientError_ne_ok, rfl⟩⟩
      · rename_i hne
        rw [if_neg hne] at hkeys
        refine ⟨rfl, Or.inl ⟨rfl, ?_⟩⟩
        exact Kv.get_apply_multiSet _ (fun kv hkv => hkeys rfl kv.1 (List.mem_map_of_mem hkv)) .sync
  | multiDel keys =>
      rw [Acknowledges, run, procMultiDel]
      split
      · exact ⟨rfl, Or.inr ⟨clientError_ne_ok, rfl⟩⟩
      · refine ⟨rfl, Or.inl ⟨rfl, ?_⟩⟩
        show Kv.get (keys.foldl ExpirationHandler.delTtl _).db = _
        rw [ExpirationHandler.kvGet_foldl_delTtl]
        exact Kv.get_apply_multiDel _ keys .sync

/-- A write that is acknowledged was in range. -/
theorem inKvRange_of_acknowledges {key val : Bytes} (h : serv.Acknowledges (.set key val)) :
    serv.inKvRange key := by
  by_contra hout
  rw [Acknowledges, run, procSet, checkKvKeyRange, if_pos ⟨rfl, hout⟩] at h
  exact outOfRange_ne_ok h

/-- A value that is there is answered. -/
theorem procMultiGet_of_get {key val : Bytes} (h : serv.get key = some val) :
    serv.procMultiGet [key] = [ascii "ok", key, val] := by
  rw [procMultiGet, List.flatMap_cons, h]
  rfl

/-- The keys of an answer are not empty, at most `last`, and none is behind the last one. -/
theorem mem_procKeys {last : Bytes} {limit : ℕ} {key : Bytes}
    (hkey : key ∈ serv.procKeys [] last limit) :
    key ≠ [] ∧ (last ≠ [] → key ≤ last) ∧ key ≤ (serv.procKeys [] last limit).getLastD [] := by
  obtain ⟨p, hp, rfl⟩ := List.mem_map.mp hkey
  obtain ⟨hfirst, hlast⟩ := Kv.mem_scan hp
  have hne : p.1 ≠ [] := by
    intro hnil
    rw [hnil] at hfirst
    exact List.not_lt_nil _ hfirst
  refine ⟨hne, hlast, ?_⟩
  have hsorted : (serv.procKeys [] last limit).Pairwise (· ≤ ·) := by
    rw [procKeys, List.pairwise_map]
    exact (Kv.scan_sorted _ _ _ _).imp fun h => h.le
  generalize serv.procKeys [] last limit = keys at hkey hsorted
  rw [List.getLastD_eq_getLast?, List.getLast?_eq_some_getLast (List.ne_nil_of_mem hkey)]
  exact hsorted.rel_getLast hkey

end SsdbServer

/-! ## Writes that keep away from the migration -/

namespace Migration

variable {m : Migration}

/-- The key whose value is on its way to `dst`. -/
def carried (m : Migration) : Option Bytes :=
  match m.state with
  | .copy key _ _ _ => some key
  | _ => none

/-- The key that is on `dst` and is to be deleted on `src`. -/
def removed (m : Migration) : Option Bytes :=
  match m.state with
  | .remove key _ _ _ => some key
  | _ => none

/-- The migration is not between its `get` and its `del` of the key. -/
def SrcFree (m : Migration) (key : Bytes) : Prop := m.carried ≠ some key ∧ m.removed ≠ some key

/-- The migration has come to its end. -/
def isDone (m : Migration) : Bool :=
  match m.state with
  | .done _ => true
  | _ => false

/-- No value of the key is still to be moved to `dst`. -/
def DstFree (m : Migration) (key : Bytes) : Prop :=
  m.isDone = true ∨ (m.carried ≠ some key ∧ (m.src.get key = none ∨ m.removed = some key))

instance : DecidablePred m.SrcFree := fun _ => inferInstanceAs (Decidable (_ ∧ _))

instance : DecidablePred m.DstFree := fun _ => inferInstanceAs (Decidable (_ ∨ (_ ∧ (_ ∨ _))))

/-- The writes of a step have non-empty keys, a `multi_set` on `src` leaves the key in transit alone,
and a write on `dst` is to no key that is still to be moved there. -/
def KeepsAway (m : Migration) : MigrationStep → Prop
  | .src (.set key _) => m.src.inKvRange key → key ≠ []
  | .src (.multiSet kvs) => ∀ kv ∈ kvs, kv.1 ≠ [] ∧ m.SrcFree kv.1
  | .dst (.set key _) => m.dst.inKvRange key → key ≠ [] ∧ m.DstFree key
  | .dst (.multiSet kvs) => ∀ kv ∈ kvs, kv.1 ≠ [] ∧ m.DstFree kv.1
  | _ => True

instance (m : Migration) : DecidablePred m.KeepsAway
  | .src (.set _ _) => inferInstanceAs (Decidable (_ → _))
  | .src (.multiSet kvs) => inferInstanceAs (Decidable (∀ kv ∈ kvs, _ ∧ _))
  | .dst (.set _ _) => inferInstanceAs (Decidable (_ → _ ∧ _))
  | .dst (.multiSet kvs) => inferInstanceAs (Decidable (∀ kv ∈ kvs, _ ∧ _))
  | .src (.del _) => inferInstanceAs (Decidable True)
  | .src (.multiDel _) => inferInstanceAs (Decidable True)
  | .dst (.del _) => inferInstanceAs (Decidable True)
  | .dst (.multiDel _) => inferInstanceAs (Decidable True)
  | .migrate => inferInstanceAs (Decidable True)
  | .fail => inferInstanceAs (Decidable True)

/-! ## The invariant -/

/-- The keys that the migration has on its list. -/
def pending (m : Migration) : List Bytes :=
  match m.state with
  | .lock keys => keys
  | .move keys _ => keys
  | .copy key _ keys _ => key :: keys
  | .remove key _ keys _ => key :: keys
  | _ => []

/-- `src` answers only to keys behind those that are being moved. -/
def Locked (m : Migration) : Prop :=
  match m.state with
  | .lock _ => m.movedMaxKey ≠ []
  | .move _ _ => m.movedMaxKey ≠ [] ∧ m.src.kvRange.first = m.movedMaxKey
  | .copy _ _ _ _ => m.movedMaxKey ≠ [] ∧ m.src.kvRange.first = m.movedMaxKey
  | .remove _ _ _ _ => m.movedMaxKey ≠ [] ∧ m.src.kvRange.first = m.movedMaxKey
  | _ => True

/-- Where a value is while the migration does nothing with its key. -/
def AtRest (val : Bytes) (src dst : Option Bytes) : Prop :=
  src = some val ∨ (src = none ∧ dst = some val)

/-- Where a value that has to be kept is. -/
def HeldAt (state : MigrateState) (key val : Bytes) (src dst : Option Bytes) : Prop :=
  match state with
  | .copy key' val' _ _ => if key' = key then src = some val ∧ val' = val else AtRest val src dst
  | .remove key' _ _ _ => if key' = key then dst = some val else AtRest val src dst
  | .done _ => src = some val ∨ dst = some val
  | _ => AtRest val src dst

/-- The keys in transit are out of the range of `src`, and every outstanding write is held. -/
structure Kept (written : Bytes → Option Bytes) (m : Migration) : Prop where
  listed : ∀ key ∈ m.pending, key ≠ [] ∧ key ≤ m.movedMaxKey
  locked : m.Locked
  held : ∀ key val, written key = some val →
    HeldAt m.state key val (m.src.get key) (m.dst.get key)

/-- A value at rest is on one of the servers. -/
theorem AtRest.readable {val : Bytes} {src dst : Option Bytes} (h : AtRest val src dst) :
    src = some val ∨ dst = some val :=
  h.imp_right (·.2)

/-- A value that is held is on one of the servers. -/
theorem HeldAt.readable {state : MigrateState} {key val : Bytes} {src dst : Option Bytes}
    (h : HeldAt state key val src dst) : src = some val ∨ dst = some val := by
  unfold HeldAt at h
  split at h
  · split at h
    · exact Or.inl h.1
    · exact h.readable
  · split at h
    · exact Or.inr h
    · exact h.readable
  · exact h
  · exact h.readable

/-- A value that the source may write is held there. -/
theorem heldAt_of_srcFree {key val : Bytes} {dst : Option Bytes} (h : m.SrcFree key) :
    HeldAt m.state key val (some val) dst := by
  obtain ⟨hcarried, hremoved⟩ := h
  unfold carried at hcarried
  unfold removed at hremoved
  unfold HeldAt
  split <;> simp_all [AtRest]

/-- A value that the destination may write is held there. -/
theorem heldAt_of_dstFree {key val : Bytes} (h : m.DstFree key) :
    HeldAt m.state key val (m.src.get key) (some val) := by
  unfold DstFree isDone carried removed at h
  unfold HeldAt
  split
  · rename_i hstate
    simp_all [AtRest]
  · rename_i hstate
    split
    · rfl
    · rename_i hkey
      simp_all [AtRest]
  · exact Or.inr rfl
  · rename_i hdone
    split at h <;> simp_all [AtRest]

/-- The range check keeps a `set` away from the key in transit. -/
theorem Kept.srcFree {written : Bytes → Option Bytes} (h : m.Kept written) {key : Bytes}
    (hkey : m.src.inKvRange key) : m.SrcFree key := by
  have hlisted := h.listed
  have hlocked := h.locked
  have key_ne : ∀ key' : Bytes, key' ≤ m.movedMaxKey → m.movedMaxKey ≠ [] →
      m.src.kvRange.first = m.movedMaxKey → key' ≠ key := by
    rintro _ hle hne hfirst rfl
    apply hkey
    rw [hfirst]
    exact Or.inl ⟨hne, hle⟩
  unfold pending at hlisted
  unfold Locked at hlocked
  unfold SrcFree carried removed
  split at hlisted <;> simp_all

/-! ## Every step keeps it -/

/-- A write to the source keeps the values, where the source is free. -/
theorem Kept.src {written : Bytes → Option Bytes} (h : m.Kept written) {c : KvCommand}
    (hfree : ∀ key ∈ c.written, m.SrcFree key) {serv : SsdbServer}
    (hrange : serv.kvRange = m.src.kvRange) (hget : serv.get = c.effect m.src.get) :
    Kept (c.effect written) { m with src := serv } := by
  refine ⟨h.listed, ?_, ?_⟩
  · have hlocked := h.locked
    unfold Locked at *
    rw [hrange]
    exact hlocked
  · intro key val hval
    show HeldAt m.state key val (serv.get key) (m.dst.get key)
    rw [hget]
    rcases c.effect_cases key with ⟨hkey, val', heff⟩ | heff | heff
    · obtain rfl : val' = val := by simpa [heff] using hval
      rw [heff]
      exact heldAt_of_srcFree (hfree key hkey)
    · simp [heff] at hval
    · rw [heff]
      exact h.held key val ((heff written).symm.trans hval)

/-- A write to the destination keeps them, where that is free. -/
theorem Kept.dst {written : Bytes → Option Bytes} (h : m.Kept written) {c : KvCommand}
    (hfree : ∀ key ∈ c.written, m.DstFree key) {serv : SsdbServer}
    (hget : serv.get = c.effect m.dst.get) :
    Kept (c.effect written) { m with dst := serv } := by
  refine ⟨h.listed, h.locked, ?_⟩
  intro key val hval
  show HeldAt m.state key val (m.src.get key) (serv.get key)
  rw [hget]
  rcases c.effect_cases key with ⟨hkey, val', heff⟩ | heff | heff
  · obtain rfl : val' = val := by simpa [heff] using hval
    rw [heff]
    exact heldAt_of_dstFree (hfree key hkey)
  · simp [heff] at hval
  · rw [heff]
    exact h.held key val ((heff written).symm.trans hval)

/-- A step of the migration keeps them. -/
theorem Kept.migrate {written : Bytes → Option Bytes} (h : m.Kept written) :
    Kept written m.migrate := by
  obtain ⟨hlisted, hlocked, hheld⟩ := h
  unfold Migration.migrate
  unfold pending at hlisted
  unfold Locked at hlocked
  cases hstate : m.state with
  | list =>
      rw [hstate] at hheld
      dsimp only
      split
      · exact ⟨by simp [pending], trivial, fun key val hval => (hheld key val hval).readable⟩
      · rename_i hsome
        refine ⟨?_, ?_, hheld⟩
        · intro key hkey
          obtain ⟨hne, -, hle⟩ := m.src.mem_procKeys hkey
          exact ⟨hne, hle⟩
        · have hlast := List.getLast_mem hsome
          obtain ⟨hne, -⟩ := m.src.mem_procKeys hlast
          show List.getLastD _ _ ≠ []
          rwa [List.getLastD_eq_getLast?, List.getLast?_eq_some_getLast hsome]
  | lock keys =>
      rw [hstate] at hlisted hlocked hheld
      exact ⟨hlisted, ⟨hlocked, rfl⟩, hheld⟩
  | move keys bytes =>
      rw [hstate] at hlisted hlocked hheld
      cases keys with
      | nil =>
          dsimp only
          split
          · refine ⟨?_, hlocked, hheld⟩
            intro key hkey
            obtain ⟨hne, hle, -⟩ := m.src.mem_procKeys hkey
            exact ⟨hne, hle hlocked.1⟩
          · split
            · exact ⟨by simp [pending], trivial, fun key val hval => (hheld key val hval).readable⟩
            · exact ⟨by simp [pending], trivial, hheld⟩
      | cons key keys =>
          dsimp only
          cases hget : m.src.get key with
          | none =>
              refine ⟨?_, hlocked, hheld⟩
              exact fun key' hkey' => hlisted key' (List.mem_cons_of_mem _ hkey')
          | some val =>
              -- a value on `src` is the one to be kept, so it is the one that is carried
              refine ⟨hlisted, hlocked, ?_⟩
              intro key' val' hval
              have hat : AtRest val' (m.src.get key') (m.dst.get key') := hheld key' val' hval
              show if key = key' then _ else _
              split
              · rename_i heq
                subst heq
                rw [hget] at hat ⊢
                rcases hat with heq | ⟨hnone, -⟩
                · exact ⟨heq, Option.some.inj heq⟩
                · cases hnone
              · exact hat
  | copy key val keys bytes =>
      rw [hstate] at hlisted hlocked hheld
      refine ⟨hlisted, hlocked, ?_⟩
      intro key' val' hval
      have hat := hheld key' val' hval
      have hne : key ≠ [] := (hlisted key List.mem_cons_self).1
      show if key = key' then (m.dst.handle (.set key val)).get key' = some val' else
        AtRest val' (m.src.get key') ((m.dst.handle (.set key val)).get key')
      rw [SsdbServer.get_handle_set _ hne]
      simp only [HeldAt] at hat
      split
      · rename_i heq
        rw [if_pos heq] at hat
        rw [← heq, Function.update_self, hat.2]
      · rename_i hkey
        rw [if_neg hkey] at hat
        rwa [Function.update_of_ne (Ne.symm hkey)]
  | remove key val keys bytes =>
      rw [hstate] at hlisted hlocked hheld
      refine ⟨fun key' hkey' => hlisted key' (List.mem_cons_of_mem _ hkey'), hlocked, ?_⟩
      intro key' val' hval
      have hat := hheld key' val' hval
      show AtRest val' ((m.src.handle (.del key)).get key') (m.dst.get key')
      rw [SsdbServer.get_handle_del]
      simp only [HeldAt] at hat
      split at hat
      · rename_i heq
        subst heq
        exact Or.inr ⟨Function.update_self _ _ _, hat⟩
      · rename_i hkey
        rwa [Function.update_of_ne (Ne.symm hkey)]
  | publish bytes =>
      rw [hstate] at hheld
      exact ⟨by simp [pending], trivial, fun key val hval => (hheld key val hval).readable⟩
  | done ret =>
      rw [hstate] at hheld
      exact ⟨by simp [pending], trivial, hheld⟩

/-- And so does giving up. -/
theorem Kept.fail {written : Bytes → Option Bytes} (h : m.Kept written) : Kept written m.fail := by
  unfold Migration.fail
  split
  · exact h
  · refine ⟨by simp [pending], trivial, ?_⟩
    exact fun key val hval => (h.held key val hval).readable

/-- What is outstanding after one more write. -/
theorem outstanding_append (cs : List KvCommand) (c : KvCommand) :
    KvCommand.outstanding (cs ++ [c]) = c.effect (KvCommand.outstanding cs) := by
  rw [KvCommand.outstanding, List.foldl_append]
  rfl

/-- A step that meets the condition keeps the invariant for the commands acknowledged so far. -/
theorem Kept.step {cs : List KvCommand} (h : m.Kept (KvCommand.outstanding cs)) {l : MigrationStep}
    (hl : m.KeepsAway l) :
    Kept (KvCommand.outstanding (cs ++ (m.acknowledged l).toList)) (m.step l) := by
  cases l with
  | src c =>
      -- the source acknowledges writes only of keys that the migration is not moving just now
      have hfree : m.src.Acknowledges c → ∀ key ∈ c.written, key ≠ [] ∧ m.SrcFree key := by
        intro hack key hkey
        cases c with
        | set key' val =>
            obtain rfl := List.mem_singleton.mp hkey
            have hin := m.src.inKvRange_of_acknowledges hack
            exact ⟨hl hin, h.srcFree hin⟩
        | multiSet kvs =>
            obtain ⟨kv, hkv, rfl⟩ := List.mem_map.mp hkey
            exact hl kv hkv
        | del key' => cases hkey
        | multiDel keys => cases hkey
      obtain ⟨hrange, hrun⟩ := m.src.run_cases c fun hack key hkey => (hfree hack key hkey).1
      -- a refused write leaves the store and the history as they are
      rcases hrun with ⟨hack, hget⟩ | ⟨hnack, hsame⟩
      · rw [acknowledged, if_pos hack]
        show Kept (KvCommand.outstanding (cs ++ [c])) _
        rw [outstanding_append]
        exact h.src (fun key hkey => (hfree hack key hkey).2) hrange hget
      · rw [acknowledged, if_neg hnack, Migration.step, hsame]
        simpa using h
  | dst c =>
      have hfree : m.dst.Acknowledges c → ∀ key ∈ c.written, key ≠ [] ∧ m.DstFree key := by
        intro hack key hkey
        cases c with
        | set key' val =>
            obtain rfl := List.mem_singleton.mp hkey
            exact hl (m.dst.inKvRange_of_acknowledges hack)
        | multiSet kvs =>
            obtain ⟨kv, hkv, rfl⟩ := List.mem_map.mp hkey
            exact hl kv hkv
        | del key' => cases hkey
        | multiDel keys => cases hkey
      obtain ⟨-, hrun⟩ := m.dst.run_cases c fun hack key hkey => (hfree hack key hkey).1
      rcases hrun with ⟨hack, hget⟩ | ⟨hnack, hsame⟩
      · rw [acknowledged, if_pos hack]
        show Kept (KvCommand.outstanding (cs ++ [c])) _
        rw [outstanding_append]
        exact h.dst (fun key hkey => (hfree hack key hkey).2) hget
      · rw [acknowledged, if_neg hnack, Migration.step, hsame]
        simpa using h
  | migrate => simpa [acknowledged, Migration.step] using h.migrate
  | fail => simpa [acknowledged, Migration.step] using h.fail

/-- **Migration loses no acknowledged write.**  In every run of a migration and of clients in which
writes have non-empty keys, a `multi_set` leaves the key in transit alone and a write on `dst` is to no
key that is still to be moved there, the value of the last acknowledged write of a key can be read on
`src` or on `dst`, at every moment and so when the migration has returned. -/
theorem migration_keeps_writes (m : Migration) (hlist : m.state = .list) (ls : List MigrationStep)
    (hls : Guarded step KeepsAway m ls) (key val : Bytes)
    (hval : KvCommand.outstanding (eventValues step acknowledged m ls) key = some val) :
    let m' := ls.foldl step m
    m'.src.procMultiGet [key] = [ascii "ok", key, val] ∨
      m'.dst.procMultiGet [key] = [ascii "ok", key, val] := by
  intro m'
  have hkept : Kept (KvCommand.outstanding ([] ++ eventValues step acknowledged m ls)) m' := by
    refine hls.history (H := fun cs m => Kept (KvCommand.outstanding cs) m) ?_ ?_
    · exact fun cs m l h hl => h.step hl
    · refine ⟨?_, ?_, ?_⟩
      · simp [pending, hlist]
      · simp [Locked, hlist]
      · exact fun key val hnone => by cases hnone
  rcases (hkept.held key val hval).readable with hsrc | hdst
  · exact Or.inl (m'.src.procMultiGet_of_get hsrc)
  · exact Or.inr (m'.dst.procMultiGet_of_get hdst)

/-- A node with no data and the given range. -/
def emptyServer (first last : Bytes) : SsdbServer := ⟨.new .empty, ⟨first, last⟩⟩

/-- A migration of at most two keys from a node for the keys behind `m` to one for those up to `m`. -/
def sampleMigration : Migration where
  src := emptyServer (ascii "m") []
  dst := emptyServer [] (ascii "m")
  srcRange := ⟨ascii "m", []⟩
  dstRange := ⟨[], ascii "m"⟩
  numKeys := 2
  movedMaxKey := []
  state := .list

/-- A whole migration with writes before, during and after it. -/
theorem migration_keeps_writes_sample :
    let ls : List MigrationStep := [.src (.set (ascii "p") (ascii "1")),
      .src (.multiSet [(ascii "q", ascii "2"), (ascii "r", ascii "3")]), .migrate, .migrate, .migrate,
      .dst (.set (ascii "a") (ascii "4")), .src (.set (ascii "p") (ascii "5")), .migrate, .migrate,
      .migrate, .src (.set (ascii "r") (ascii "6")), .migrate, .migrate, .migrate, .migrate,
      .dst (.set (ascii "p") (ascii "7"))]
    let m' := ls.foldl step sampleMigration
    m'.isDone = true ∧ (m'.src.procMultiGet [ascii "p"] = [ascii "ok", ascii "p", ascii "7"] ∨
      m'.dst.procMultiGet [ascii "p"] = [ascii "ok", ascii "p", ascii "7"]) := by
  intro ls m'
  exact ⟨by decide +kernel, migration_keeps_writes sampleMigration rfl ls (by decide +kernel)
    (ascii "p") (ascii "7") (by decide +kernel)⟩

/-- **A write is lost.**  The migration has read `p`; `multi_set` gives it a new value and is
acknowledged; the migration deletes `p` on `src`, returns 2, and no server has the new value. -/
theorem write_lost_in_migration :
    let ls : List MigrationStep := [.src (.set (ascii "p") (ascii "1")), .migrate, .migrate, .migrate,
      .src (.multiSet [(ascii "p", ascii "2")]), .migrate, .migrate, .migrate, .migrate]
    let m' := ls.foldl step sampleMigration
    KvCommand.outstanding (eventValues step acknowledged sampleMigration ls) (ascii "p") =
        some (ascii "2") ∧
      m'.state = .done 2 ∧
      m'.src.procMultiGet [ascii "p"] = [ascii "ok"] ∧
      m'.dst.procMultiGet [ascii "p"] = [ascii "ok", ascii "p", ascii "1"] := by
  decide +kernel

end Migration

end Ssdb
