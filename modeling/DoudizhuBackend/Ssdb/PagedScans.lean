/-
# Scans in pages

A client that wants all keys, all fields of a hash or all members of a sorted set asks for them in pages, each
behind the last key (the last key and score) of the one before.  The pages together are everything that is
stored, once and in order, but for two things that a scan forward does not reach (`paged_scans`):

* the empty key, at which it starts: `incr` stores it, while `hset` and `zset` accept no empty key;
* members with the greatest score and a key above `"\xff"`, which lie behind its end.
-/
import DoudizhuBackend.Paging
import DoudizhuBackend.Ssdb.BackwardScans

namespace Ssdb

/-! ## The pages -/

/-- The pages of `scan`. -/
def scanPages (db : Db) (n : ℕ) : ℕ → Bytes → Option (List (Bytes × Bytes)) :=
  pages (fun start => Kv.scan db start [] n) Prod.fst

/-- The pages of `hscan`. -/
def hscanPages (db : Db) (name : Bytes) (n : ℕ) : ℕ → Bytes → Option (List (Bytes × Bytes)) :=
  pages (fun start => hscan db name start [] n) Prod.fst

/-- The pages of `zscan`; the cursor is a key and a score. -/
def zscanPages (db : Db) (name : Bytes) (n : ℕ) : ℕ → Bytes × Bytes → Option (List (Bytes × Bytes)) :=
  pages (fun start => zscan db name start.1 start.2 [] n) id

/-- A list of pairs in the order of their keys, each key with its value. -/
structure Lists (get : Bytes → Option Bytes) (pairs : List (Bytes × Bytes)) : Prop where
  sorted : pairs.Pairwise fun p q => p.1 < q.1
  mem : ∀ key val, (key, val) ∈ pairs ↔ get key = some val

/-! ## Keys and fields -/

/-- The records of a stretch as keys and values. -/
def stretchPairs (db : Db) (pre : Bytes) : List (Bytes × Bytes) :=
  (db.under pre).map fun p => (p.1, p.2.image)

theorem lists_stretchPairs (db : Db) (pre : Bytes) :
    Lists (fun key => (db.get (pre ++ key)).map Value.image) (stretchPairs db pre) where
  sorted := by
    rw [stretchPairs, List.pairwise_map]
    exact db.under_sorted pre
  mem := by
    intro key val
    rw [stretchPairs, List.mem_map, Option.map_eq_some_iff]
    constructor
    · rintro ⟨⟨c, v⟩, hmem, heq⟩
      obtain ⟨rfl, rfl⟩ := Prod.mk.inj heq
      exact ⟨v, OrderedMap.mem_under.mp hmem, rfl⟩
    · rintro ⟨v, hget, rfl⟩
      exact ⟨(key, v), OrderedMap.mem_under.mpr hget, rfl⟩

/-- The pages of a walk over a stretch, which starts behind the bare start of the keys. -/
theorem pages_stretch {db : Db} {pre : Bytes} {n : ℕ} (hn : 0 < n) {call : Bytes → List (Bytes × Bytes)}
    (hcall : ∀ first, call first =
      (((db.under pre).filter fun p => first < p.1).take n).map fun p => (p.1, p.2.image)) :
    pages call Prod.fst (((db.under pre).filter fun p => [] < p.1).length + 1) [] =
      some ((stretchPairs db pre).filter fun p => [] < p.1) := by
  have hfilter : (stretchPairs db pre).filter (fun p => [] < p.1) =
      ((db.under pre).filter fun p => [] < p.1).map fun p => (p.1, p.2.image) := by
    rw [stretchPairs, List.filter_map]
    rfl
  rw [hfilter]
  apply pages_of_sorted (R := fun p q : Bytes × Value => p.1 < q.1) (fun x y hlt => hlt.asymm)
    ((db.under_sorted pre).filter _) hn (hcall [])
  intro x hx
  have hpos : [] < x.1 := of_decide_eq_true (List.mem_filter.mp hx).2
  rw [hcall, List.filter_filter]
  congr 2
  apply List.filter_congr
  intro p _
  rw [Bool.eq_iff_iff]
  simp only [Bool.and_eq_true, decide_eq_true_eq]
  exact ⟨fun hlt => ⟨hlt, hpos.trans hlt⟩, fun h => h.1⟩

/-- All of a stretch is read in pages exactly if there is no empty key. -/
theorem pages_stretch_iff {db : Db} {pre : Bytes} {n : ℕ} (hn : 0 < n) {call : Bytes → List (Bytes × Bytes)}
    (hcall : ∀ first, call first =
      (((db.under pre).filter fun p => first < p.1).take n).map fun p => (p.1, p.2.image)) :
    (∃ fuel, pages call Prod.fst fuel [] = some (stretchPairs db pre)) ↔ db.get pre = none := by
  have hpages := pages_stretch hn hcall
  have hiff : (stretchPairs db pre).filter (fun p => [] < p.1) = stretchPairs db pre ↔ db.get pre = none := by
    rw [List.filter_eq_self]
    constructor
    · intro hall
      by_contra hsome
      obtain ⟨v, hv⟩ := Option.ne_none_iff_exists'.mp hsome
      have hmem : (([] : Bytes), v.image) ∈ stretchPairs db pre := by
        rw [(lists_stretchPairs db pre).mem, List.append_nil, hv]
        rfl
      exact absurd (of_decide_eq_true (hall _ hmem)) (List.lt_irrefl _)
    · rintro hnone ⟨key, val⟩ hmem
      rw [(lists_stretchPairs db pre).mem] at hmem
      rw [decide_eq_true_eq, nil_lt_iff]
      rintro rfl
      rw [List.append_nil, hnone] at hmem
      cases hmem
  rw [← hiff]
  constructor
  · rintro ⟨fuel, hfuel⟩
    exact pages_unique hpages hfuel
  · intro heq
    rw [heq] at hpages
    exact ⟨_, hpages⟩

theorem Kv.scan_eq (db : Db) (first : Bytes) (n : ℕ) : Kv.scan db first [] n =
    (((db.under [DataType.KV]).filter fun p => first < p.1).take n).map fun p => (p.1, p.2.image) := by
  have hstretch := iterator_stretch db [DataType.KV] first n
  rw [List.singleton_append] at hstretch
  rw [Kv.scan, if_pos rfl, kIterator_eq, encodeKvKey, hstretch, filterMap_decodeKvKey]

/-! ## Members -/

/-- **The pages of a sorted set** are the members that a walk forward sees. -/
theorem Db.Members.zscanPages_eq {db : Db} {name : Bytes} {L : List (ℤ × Bytes)} (h : db.Members name L)
    (hname : IsShort name) {n : ℕ} (hn : 0 < n) :
    zscanPages db name n ((seen (2 ^ 63 - 1) L).length + 1) ([], []) =
      some ((seen (2 ^ 63 - 1) L).map itemText) := by
  apply pages_of_sorted (R := fun p q : ℤ × Bytes => itemLt p q) (fun x y => itemLt_asymm)
    (h.sorted.filter _) hn
  · exact h.ziterator_all hname n
  · rintro ⟨s, key⟩ hx
    exact h.zscan_behind hname (h.isInt64 _ (List.mem_of_mem_filter hx)) key n

theorem Db.Members.zscanPages_iff {db : Db} {name : Bytes} {L : List (ℤ × Bytes)} (h : db.Members name L)
    (hname : IsShort name) {n : ℕ} (hn : 0 < n) :
    (∃ fuel, zscanPages db name n fuel ([], []) = some (L.map itemText)) ↔
      ∀ p ∈ L, ¬ BeyondEnd (2 ^ 63 - 1) p := by
  have hpages := h.zscanPages_eq hname hn
  rw [← length_seen_eq_iff]
  constructor
  · rintro ⟨fuel, hfuel⟩
    rw [map_itemText_inj.mp (pages_unique hpages hfuel)]
  · intro hlength
    rw [h.seen_all_prefix.eq_of_length hlength] at hpages
    exact ⟨_, hpages⟩

/-- **Reading in pages.**  In every store, with pages of every size: `scan` returns all keys exactly if the
empty key is not stored, `hscan` all fields, and `zscan` all members exactly if none lies behind its end. -/
theorem paged_scans (steps : List StoreStep) {n : ℕ} (hn : 0 < n) :
    (∃ pairs, Lists (Kv.get (steps.foldl Db.step OrderedMap.empty)) pairs ∧
      ((∃ fuel, scanPages (steps.foldl Db.step OrderedMap.empty) n fuel [] = some pairs) ↔
        Kv.get (steps.foldl Db.step OrderedMap.empty) [] = none)) ∧
    (∀ name, IsShort name → ∃ fields, Lists (hget (steps.foldl Db.step OrderedMap.empty) name) fields ∧
      ∃ fuel, hscanPages (steps.foldl Db.step OrderedMap.empty) name n fuel [] = some fields) ∧
    ∀ name, IsShort name → ∃ L, Db.Members (steps.foldl Db.step OrderedMap.empty) name L ∧
      ((∃ fuel, zscanPages (steps.foldl Db.step OrderedMap.empty) name n fuel ([], []) =
        some (L.map itemText)) ↔ ∀ p ∈ L, ¬ BeyondEnd (2 ^ 63 - 1) p) := by
  have hstore := isStore_run steps
  generalize steps.foldl Db.step OrderedMap.empty = db at hstore
  refine ⟨?_, ?_, ?_⟩
  · refine ⟨stretchPairs db [DataType.KV], lists_stretchPairs db [DataType.KV], ?_⟩
    rw [scanPages, pages_stretch_iff hn fun first => Kv.scan_eq db first n, Kv.get, Option.map_eq_none_iff]
    rfl
  · intro name hname
    have hpages := pages_stretch_iff hn fun first => hstore.hashes.hscan_eq hname first n
    refine ⟨stretchPairs db (hashStart name), ?_, hpages.mpr ?_⟩
    · have hlists := lists_stretchPairs db (hashStart name)
      simp only [← encodeHashKey_eq] at hlists
      exact hlists
    · -- no field has the empty key
      obtain ⟨content, keys, hh⟩ := hstore.hashes.hashes name
      have hfield := hh.field []
      rw [encodeHashKey_eq, List.append_nil] at hfield
      rw [hfield, Option.map_eq_none_iff]
      by_contra hsome
      exact (hh.isField [] (Option.isSome_iff_ne_none.mpr hsome)).key_ne_nil rfl
  · intro name hname
    obtain ⟨L, hL⟩ := hstore.exists_members hname
    exact ⟨L, hL, hL.zscanPages_iff hname hn⟩

/-- Three pairs, and a hash and a sorted set of three elements each. -/
def threeOfEach : List StoreStep :=
  [.write (.set (ascii "b") (ascii "2")) .sync, .write (.set (ascii "a") (ascii "1")) .sync,
    .write (.set (ascii "c") (ascii "3")) .sync, .write (.hset (ascii "h") (ascii "y") (ascii "5")) .sync,
    .write (.hset (ascii "h") (ascii "x") (ascii "4")) .sync, .write (.hset (ascii "h") (ascii "z") (ascii "6")) .sync,
    .write (.zset (ascii "s") (ascii "k") (ascii "9")) .sync, .write (.zset (ascii "s") (ascii "m") (ascii "7")) .sync,
    .write (.zset (ascii "s") (ascii "l") (ascii "9")) .sync]

/-- Pages of two elements: two of them with elements, and the third one empty. -/
theorem paged_scans_two :
    0 < 2 ∧
      (∃ pairs, Lists (Kv.get (threeOfEach.foldl Db.step OrderedMap.empty)) pairs ∧
        ((∃ fuel, scanPages (threeOfEach.foldl Db.step OrderedMap.empty) 2 fuel [] = some pairs) ↔
          Kv.get (threeOfEach.foldl Db.step OrderedMap.empty) [] = none)) ∧
      (∃ L, Db.Members (threeOfEach.foldl Db.step OrderedMap.empty) (ascii "s") L ∧
        ((∃ fuel, zscanPages (threeOfEach.foldl Db.step OrderedMap.empty) (ascii "s") 2 fuel ([], []) =
          some (L.map itemText)) ↔ ∀ p ∈ L, ¬ BeyondEnd (2 ^ 63 - 1) p)) ∧
      scanPages (threeOfEach.foldl Db.step OrderedMap.empty) 2 3 [] =
        some [(ascii "a", ascii "1"), (ascii "b", ascii "2"), (ascii "c", ascii "3")] ∧
      hscanPages (threeOfEach.foldl Db.step OrderedMap.empty) (ascii "h") 2 3 [] =
        some [(ascii "x", ascii "4"), (ascii "y", ascii "5"), (ascii "z", ascii "6")] ∧
      zscanPages (threeOfEach.foldl Db.step OrderedMap.empty) (ascii "s") 2 3 ([], []) =
        some [(ascii "m", ascii "7"), (ascii "k", ascii "9"), (ascii "l", ascii "9")] := by
  have hname : IsShort (ascii "s") := show (ascii "s").length ≤ 255 by decide
  obtain ⟨hscan, -, hzscan⟩ := paged_scans threeOfEach (by decide : 0 < 2)
  exact ⟨by decide, hscan, hzscan (ascii "s") hname, by decide +kernel, by decide +kernel, by decide +kernel⟩

/-- **A key that no page shows**: `incr` with the empty key. -/
theorem scan_misses_emptyKey :
    Kv.get ([StoreStep.write (.incr [] 1) .sync].foldl Db.step OrderedMap.empty) [] = some (ascii "1") ∧
      ∀ pairs fuel, scanPages ([StoreStep.write (.incr [] 1) .sync].foldl Db.step OrderedMap.empty) 10 fuel [] =
        some pairs → pairs = [] := by
  refine ⟨by decide, ?_⟩
  intro pairs fuel hpages
  have hfirst : scanPages ([StoreStep.write (.incr [] 1) .sync].foldl Db.step OrderedMap.empty) 10 1 [] =
      some [] := by decide
  exact pages_unique hpages hfirst

end Ssdb
