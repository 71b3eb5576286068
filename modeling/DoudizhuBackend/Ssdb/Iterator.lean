/-
# Iterators and replies

`ssdb-master/src/ssdb/iterator.cpp`, `SSDBImpl::iterator` and `SSDBImpl::rev_iterator`, and the
replies of `net/resp.cpp`.

A LevelDB iterator reads from a snapshot: what is written while it runs does not change what it
returns.  An iterator is therefore the list of the entries it has still to return.
-/
import DoudizhuBackend.PrefixScan
import DoudizhuBackend.Ssdb.Binlog
import Mathlib.Data.List.TakeWhile

namespace Ssdb

/-! ## Iterators -/

/-- `SSDBImpl::iterator` and `Iterator::next` forward: the entries behind `first`, up to `last`
unless that is empty, at most `limit`. -/
def iterator (db : Db) (first last : Bytes) (limit : ℕ) : List (Bytes × Value) :=
  ((db.after first).takeWhile fun p => last = [] ∨ p.1 ≤ last).take limit

/-- `SSDBImpl::rev_iterator` and `Iterator::next` backward: the entries before `first`, the last one
first. -/
def revIterator (db : Db) (first last : Bytes) (limit : ℕ) : List (Bytes × Value) :=
  (((db.entries.filter (·.1 < first)).reverse).takeWhile fun p => last = [] ∨ last ≤ p.1).take limit

/-- `KIterator`: keys and values, up to the first key of another type. -/
def kIterator (es : List (Bytes × Value)) : List (Bytes × Bytes) :=
  (es.takeWhile fun p => p.1.head? = some DataType.KV).filterMap fun p =>
    (decodeNameKey p.1).map fun key => (key, p.2.image)

/-- `HIterator`: keys and values, up to the first key of another type or name. -/
def hIterator (name : Bytes) : List (Bytes × Value) → List (Bytes × Bytes)
  | [] => []
  | p :: es =>
      if p.1.head? = some DataType.HASH then
        match decodeHashKey p.1 with
        | none => hIterator name es
        | some (n, key) => if n = name then (key, p.2.image) :: hIterator name es else []
      else []

/-- `ZIterator`: keys and scores, up to the first key of another type.  The name is not compared. -/
def zIterator (es : List (Bytes × Value)) : List (Bytes × Bytes) :=
  (es.takeWhile fun p => p.1.head? = some DataType.ZSCORE).filterMap fun p =>
    (decodeZscoreKey p.1).map fun (_, key, score) => (key, score)

/-- `get_hnames`, `get_znames` and `get_qnames`: the names behind a type, up to the first key of
another. -/
def nameIterator (type : Byte) (es : List (Bytes × Value)) : List Bytes :=
  (es.takeWhile fun p => p.1.head? = some type).filterMap fun p => decodeNameKey p.1

theorem mem_iterator {db : Db} {first last : Bytes} {limit : ℕ} {p : Bytes × Value}
    (hp : p ∈ iterator db first last limit) :
    first < p.1 ∧ (last ≠ [] → p.1 ≤ last) ∧ db.get p.1 = some p.2 := by
  have hp := List.take_subset _ _ hp
  have hlast := List.all_eq_true.mp List.all_takeWhile p hp
  have hafter := OrderedMap.mem_after.mp ((List.takeWhile_sublist _).subset hp)
  refine ⟨hafter.1, ?_, hafter.2⟩
  intro hne
  simpa [hne] using hlast

theorem iterator_sorted (db : Db) (first last : Bytes) (limit : ℕ) :
    (iterator db first last limit).Pairwise fun p q => p.1 < q.1 :=
  ((db.after_sorted first).sublist (List.takeWhile_sublist _)).sublist (List.take_sublist limit _)

/-- What `KIterator` returns is the part of the entries behind a `k`. -/
theorem mem_takeWhile_kv {es : List (Bytes × Value)} {p : Bytes × Value}
    (hp : p ∈ es.takeWhile fun p => p.1.head? = some DataType.KV) :
    p ∈ es ∧ ∃ key, p.1 = encodeKvKey key := by
  refine ⟨(List.takeWhile_sublist _).subset hp, ?_⟩
  have hhead : p.1.head? = some DataType.KV := by
    simpa using List.all_eq_true.mp List.all_takeWhile p hp
  exact ⟨p.1.tail, (List.eq_cons_of_mem_head? hhead)⟩

/-! ## Walks over the keys with a common start -/

/-- A walk forward inside a stretch, as a filter of the records. -/
theorem iterator_range (db : Db) (pre a last : Bytes) (limit : ℕ) :
    (iterator db (pre ++ a) last limit).takeWhile (fun p => pre <+: p.1) =
      (db.entries.filter fun p => pre ++ a < p.1 ∧ (last = [] ∨ p.1 ≤ last) ∧ pre <+: p.1).take limit := by
  have hdown : ∀ x y : Bytes, x < y → last = [] ∨ y ≤ last → last = [] ∨ x ≤ last := by
    intro x y hlt hy
    exact hy.imp_right hlt.le.trans
  rw [iterator, ← List.take_takeWhile, db.takeWhile_range pre a hdown]

section Stretch

variable (db : Db) (pre a : Bytes) (type : Byte) (limit : ℕ)

/-- A walk forward without an end, up to the first key without the common start. -/
theorem iterator_stretch :
    (iterator db (pre ++ a) [] limit).takeWhile (fun p => pre <+: p.1) =
      (((db.under pre).filter fun p => a < p.1).take limit).map (OrderedMap.attach pre) := by
  have hend : (db.after (pre ++ a)).takeWhile (fun p => ([] : Bytes) = [] ∨ p.1 ≤ []) =
      db.after (pre ++ a) := by
    rw [List.takeWhile_eq_self_iff]
    simp
  rw [iterator, hend, ← List.take_takeWhile, OrderedMap.takeWhile_after, List.map_take]

/-- A walk backward without an end. -/
theorem revIterator_stretch :
    (revIterator db (pre ++ a) [] limit).takeWhile (fun p => pre <+: p.1) =
      ((((db.under pre).filter fun p => p.1 < a).reverse).take limit).map (OrderedMap.attach pre) := by
  have hend : (db.entries.filter (·.1 < pre ++ a)).reverse.takeWhile
      (fun p => ([] : Bytes) = [] ∨ [] ≤ p.1) = (db.entries.filter (·.1 < pre ++ a)).reverse := by
    rw [List.takeWhile_eq_self_iff]
    simp
  rw [revIterator, hend, ← List.take_takeWhile, OrderedMap.takeWhile_before, List.map_take,
    List.map_reverse]

theorem head_eq_iff_isPrefix (k : Bytes) : k.head? = some type ↔ [type] <+: k := by
  cases k with
  | nil => simp
  | cons b k => simp [eq_comm]

theorem nameIterator_eq (es : List (Bytes × Value)) :
    nameIterator type es = (es.takeWhile fun p => [type] <+: p.1).filterMap fun p => decodeNameKey p.1 := by
  simp only [nameIterator, head_eq_iff_isPrefix]

theorem filterMap_decodeNameKey (es : List (Bytes × Value)) :
    (es.map (OrderedMap.attach [type])).filterMap (fun p => decodeNameKey p.1) = es.map (·.1) := by
  rw [List.filterMap_map, ← List.filterMap_eq_map]
  rfl

/-- The names that `hlist`, `zlist` and `qlist` return. -/
theorem nameIterator_iterator :
    nameIterator type (iterator db (type :: a) [] limit) =
      (((db.under [type]).filter fun p => a < p.1).take limit).map (·.1) := by
  rw [nameIterator_eq, show type :: a = [type] ++ a from rfl, iterator_stretch,
    filterMap_decodeNameKey]

/-- The names that `hrlist`, `zrlist` and `qrlist` return. -/
theorem nameIterator_revIterator :
    nameIterator type (revIterator db (type :: a) [] limit) =
      ((((db.under [type]).filter fun p => p.1 < a).reverse).take limit).map (·.1) := by
  rw [nameIterator_eq, show type :: a = [type] ++ a from rfl, revIterator_stretch,
    filterMap_decodeNameKey]

end Stretch

/-! ## The keys of a database -/

/-- Every key of the database has the property. -/
def Db.Keys (P : Bytes → Prop) (db : Db) : Prop := ∀ k v, db.get k = some v → P k

/-- A call that puts a key with the property. -/
def Write.Puts (P : Bytes → Prop) : Write → Prop
  | .put k _ => P k
  | _ => True

namespace Db.Keys

variable {P : Bytes → Prop} {db : Db}

theorem empty : Db.Keys P OrderedMap.empty := fun k v hget => by cases hget

theorem put (h : Db.Keys P db) {l : Bytes} (v : Value) (hl : P l) : Db.Keys P (db.put l v) := by
  intro k w hget
  rw [OrderedMap.get_put] at hget
  split at hget
  · rename_i heq
    rw [heq]
    exact hl
  · exact h k w hget

theorem delete (h : Db.Keys P db) (l : Bytes) : Db.Keys P (db.delete l) := by
  intro k w hget
  rw [OrderedMap.get_delete] at hget
  split at hget
  · cases hget
  · exact h k w hget

theorem apply {ws : List Write} (hws : ∀ w ∈ ws, w.Puts P) : ∀ {db : Db}, Db.Keys P db →
    Db.Keys P (db.apply ws) := by
  induction ws with
  | nil => intro db h; exact h
  | cons w ws ih =>
      intro db h
      have ih := @ih fun w hw => hws w (List.mem_cons_of_mem _ hw)
      have hw := hws w List.mem_cons_self
      cases w with
      | put l v => exact ih (h.put v hw)
      | delete l => exact ih (h.delete l)
      | addLog type cmd key => exact ih h

end Db.Keys

/-- A call on keys with a property puts such a key. -/
theorem Write.OnKeys.puts {P Q : Bytes → Prop} (hPQ : ∀ k, P k → Q k) {w : Write}
    (hw : w.OnKeys P) : w.Puts Q := by
  cases w with
  | put k v => exact hPQ k hw
  | delete k => trivial
  | addLog type cmd key => trivial

/-! ## Replies -/

/-- `reply_int`. -/
def replyInt (status val : ℤ) : List Bytes :=
  if status = -1 then [ascii "error"] else [ascii "ok", str val]

/-- `reply_get`. -/
def replyGet (status : ℤ) (val : Option Bytes) : List Bytes :=
  if status = -1 then [ascii "error"]
  else if status = 0 then [ascii "not_found"]
  else ascii "ok" :: val.toList

/-- `reply_bool`. -/
def replyBool (status : ℤ) : List Bytes :=
  if status = -1 then [ascii "error"]
  else if status = 0 then [ascii "ok", ascii "0"]
  else [ascii "ok", ascii "1"]

end Ssdb
