/-
# `ZRANGE` and `ZREVRANGE`

A client of Redis sends the first and the last index of a range.  `convert_req` turns them into an offset
and a count, in text, and `proc_zrange` reads both as `uint64_t`: the offset is the first index as the
client wrote it, so that a negative one is a number near `2^64`, and a negative count, of a range that
ends before it begins, is no limit at all.  Together with the bounds of the walks (`ZsetRanges`,
`BackwardScans`) this says for which indices the range is that of the sorted list
(`redis_ranges`).
-/
import DoudizhuBackend.Segments
import DoudizhuBackend.Ssdb.BackwardScans
import DoudizhuBackend.Ssdb.RedisLink

namespace Ssdb

open Segments

/-! ## The commands -/

/-- The strings of a reply with items. -/
def itemStrings (items : List (Bytes × Bytes)) : List Bytes := items.flatMap fun p => [p.1, p.2]

/-- `proc_zrange` and `proc_zrrange`. -/
def procRange (range : Bytes → ℕ → ℕ → List (Bytes × Bytes)) : Packet → List Bytes
  | _ :: name :: offset :: limit :: _ =>
      ascii "ok" :: itemStrings (range name (strtoull offset) (strtoull limit))
  | _ => [ascii "client_error", ascii "wrong number of arguments"]

/-- `proc_zrange`. -/
def procZrange (db : Db) (req : Packet) : List Bytes := procRange (zrange db) req

/-- `proc_zrrange`. -/
def procZrrange (db : Db) (req : Packet) : List Bytes := procRange (zrrange db) req

/-! ## Indices of the sorted list -/

/-- The place that an index means in a list of `n` items. -/
def indexPlace (n : ℕ) (index : ℤ) : ℤ := if 0 ≤ index then index else n + index

/-- The items from the first to the last index. -/
def indexRange (L : List (ℤ × Bytes)) (first last : ℤ) : List (ℤ × Bytes) :=
  (L.take (indexPlace L.length last + 1).toNat).drop (indexPlace L.length first).toNat

/-- The indices that `convert_req` forwards. -/
def Forwarded (first last : ℤ) : Prop := (0 ≤ first ∧ 0 ≤ last) ∨ last = -1

/-- **The indices for which the range is right**, in a list of `n` items of which a walk sees `p`.  From
a negative index to the last item: only in an empty list.  From an index to the last item: all items are
seen, or the index lies behind the list.  Between two indices: also when the items up to the last index
are seen, which a walk backward, that misses items at its beginning, does not allow.  A range that ends
before it begins: the last index is the one before the first, or the first lies behind what is seen. -/
def IndicesRight (backward : Bool) (n p : ℕ) (first last : ℤ) : Prop :=
  if last = -1 then
    if first < 0 then n = 0 else n ≤ first ∨ (p = n ∧ n < 2 ^ 64)
  else if first ≤ last then n ≤ first ∨ p = n ∨ (backward = false ∧ last < p)
  else first = last + 1 ∨ p ≤ first

theorem itemStrings_injective : Function.Injective itemStrings := by
  intro x
  induction x with
  | nil =>
      intro y h
      cases y with
      | nil => rfl
      | cons q y => cases h
  | cons p x ih =>
      intro y h
      cases y with
      | nil => cases h
      | cons q y =>
          simp only [itemStrings, List.flatMap_cons, List.cons_append, List.cons.injEq] at h
          obtain ⟨hkey, hscore, hrest⟩ := h
          rw [Prod.ext hkey hscore, ih hrest]

/-! ## Offset and limit -/

theorem strtoull_str {z : ℤ} (h : z.natAbs < 2 ^ 64) : strtoull (str z) = (z % 2 ^ 64).toNat := by
  rw [strtoull, readInt_str, if_pos h]

section Bounds

variable {first last : ℤ}

theorem strtoull_rangeSize_end (first : ℤ) :
    strtoull (str (RedisLink.rangeSize first (-1))) = 2 ^ 64 - 1 := by
  rw [RedisLink.rangeSize, if_pos rfl]
  decide

theorem rangeLimit_noLimit (offset : ℕ) :
    rangeLimit offset (2 ^ 64 - 1) = 2 ^ 64 - 1 := by
  have hle : (offset + (2 ^ 64 - 1)) % 2 ^ 64 < 2 ^ 64 := Nat.mod_lt _ (by decide)
  rw [rangeLimit, if_neg (by omega)]

theorem strtoull_rangeSize (first : ℤ) (hlast : 0 ≤ last) :
    strtoull (str (RedisLink.rangeSize first last)) = ((last - first + 1) % 2 ^ 64).toNat := by
  have hlow := Int.le_bmod (x := last - first + 1) (m := 2 ^ 64) (by decide)
  have hhigh := Int.bmod_lt (x := last - first + 1) (m := 2 ^ 64) (by decide)
  have hmod : (last - first + 1).bmod (2 ^ 64) % 2 ^ 64 = (last - first + 1) % 2 ^ 64 :=
    Int.bmod_emod
  unfold RedisLink.rangeSize
  rw [if_neg (by omega)]
  generalize (last - first + 1).bmod (2 ^ 64) = z at *
  rw [strtoull_str (by omega), hmod]

/-- The offset and the end of the walk, for each kind of indices.  A range that ends before it begins has
no end, unless its count is 0. -/
inductive BoundsCase (first last : ℤ) (offset walk : ℕ) : Prop where
  | toEnd (hlast : last = -1) (hfirst : 0 ≤ first) (hoffset : offset = first) (hwalk : walk = 2 ^ 64 - 1)
  | fromEnd (hlast : last = -1) (hfirst : first < 0) (hoffset : offset = first + 2 ^ 64)
      (hwalk : walk = 2 ^ 64 - 1)
  | between (hfirst : 0 ≤ first) (hle : first ≤ last) (hoffset : offset = first) (hwalk : walk = last + 1)
  | nothing (hlast : 0 ≤ last) (hfirst : first = last + 1) (hoffset : offset = first)
      (hwalk : walk = first)
  | noEnd (hlast : 0 ≤ last) (hlt : last + 1 < first) (hoffset : offset = first)
      (hwalk : walk = last - first + 1 + 2 ^ 64)

theorem boundsCase (hfirst : IsInt64 first) (hlast : IsInt64 last) (hforward : Forwarded first last) :
    BoundsCase first last (strtoull (str first)) (rangeLimit (strtoull (str first))
      (strtoull (str (RedisLink.rangeSize first last)))) := by
  obtain ⟨hlow, hhigh⟩ := hfirst
  obtain ⟨-, hhigh'⟩ := hlast
  rw [strtoull_str (by omega)]
  by_cases hend : last = -1
  · subst hend
    rw [strtoull_rangeSize_end, rangeLimit_noLimit]
    by_cases hnonneg : 0 ≤ first
    · exact .toEnd rfl hnonneg (by omega) rfl
    · exact .fromEnd rfl (by omega) (by omega) rfl
  · obtain ⟨hnonneg, hnonneg'⟩ : 0 ≤ first ∧ 0 ≤ last := hforward.resolve_right hend
    rw [strtoull_rangeSize first hnonneg', rangeLimit]
    rcases lt_trichotomy first (last + 1) with hlt | heq | hgt
    · refine .between hnonneg (by omega) (by omega) ?_
      split_ifs <;> omega
    · refine .nothing hnonneg' heq (by omega) ?_
      split_ifs <;> omega
    · refine .noEnd hnonneg' hgt (by omega) ?_
      split_ifs <;> omega

end Bounds

/-! ## Ranges of the list -/

section Ranges

variable {first last : ℤ} {offset walk n : ℕ}

/-- The places of the indices in the list. -/
theorem indexPlace_end (n : ℕ) : (indexPlace n (-1) + 1).toNat = n := by
  rw [indexPlace, if_neg (by omega)]
  omega

theorem indexPlace_of_nonneg (h : 0 ≤ first) : indexPlace n first = first := if_pos h

/-- A walk forward over the first `p` of `n` items. -/
theorem forward_right_iff {p : ℕ} (hcase : BoundsCase first last offset walk) (hp : p ≤ n)
    (hint : -2 ^ 63 ≤ first ∧ first < 2 ^ 63) :
    ((min (min walk p) n ≤ offset ∧ min (indexPlace n last + 1).toNat n ≤ (indexPlace n first).toNat) ∨
      (offset = (indexPlace n first).toNat ∧
        min (min walk p) n = min (indexPlace n last + 1).toNat n)) ↔
      IndicesRight false n p first last := by
  rw [IndicesRight, min_eq_left ((min_le_right walk p).trans hp)]
  cases hcase with
  | toEnd hlast hfirst hoffset hwalk =>
      rw [if_pos hlast, if_neg (by omega), hlast, indexPlace_end, indexPlace_of_nonneg hfirst, hwalk,
        min_self]
      omega
  | fromEnd hlast hfirst hoffset hwalk =>
      rw [if_pos hlast, if_pos hfirst, hlast, indexPlace_end, hwalk, min_self, indexPlace,
        if_neg (by omega)]
      omega
  | between hfirst hle hoffset hwalk =>
      rw [if_neg (by omega), if_pos hle, indexPlace_of_nonneg hfirst, indexPlace_of_nonneg (by omega)]
      simp only [true_and]
      omega
  | nothing hlast hfirst hoffset hwalk =>
      have hnonneg : 0 ≤ first := by omega
      rw [if_neg (by omega), if_neg (by omega), indexPlace_of_nonneg hnonneg, indexPlace_of_nonneg hlast]
      omega
  | noEnd hlast hlt hoffset hwalk =>
      have hnonneg : 0 ≤ first := by omega
      rw [if_neg (by omega), if_neg (by omega), indexPlace_of_nonneg hnonneg, indexPlace_of_nonneg hlast]
      omega

/-- A walk backward over all of `n` items but the first `m`. -/
theorem backward_right_iff {m : ℕ} (hcase : BoundsCase first last offset walk) (hm : m ≤ n)
    (hint : -2 ^ 63 ≤ first ∧ first < 2 ^ 63) :
    ((min (m + walk) n ≤ m + offset ∧
        min (indexPlace n last + 1).toNat n ≤ (indexPlace n first).toNat) ∨
      (m + offset = (indexPlace n first).toNat ∧
        min (m + walk) n = min (indexPlace n last + 1).toNat n)) ↔
      IndicesRight true n (n - m) first last := by
  rw [IndicesRight]
  cases hcase with
  | toEnd hlast hfirst hoffset hwalk =>
      rw [if_pos hlast, if_neg (by omega), hlast, indexPlace_end, indexPlace_of_nonneg hfirst, hwalk,
        min_self]
      omega
  | fromEnd hlast hfirst hoffset hwalk =>
      rw [if_pos hlast, if_pos hfirst, hlast, indexPlace_end, hwalk, min_self, indexPlace,
        if_neg (by omega)]
      omega
  | between hfirst hle hoffset hwalk =>
      rw [if_neg (by omega), if_pos hle, indexPlace_of_nonneg hfirst, indexPlace_of_nonneg (by omega)]
      simp only [reduceCtorEq, false_and, or_false]
      omega
  | nothing hlast hfirst hoffset hwalk =>
      have hnonneg : 0 ≤ first := by omega
      rw [if_neg (by omega), if_neg (by omega), indexPlace_of_nonneg hnonneg, indexPlace_of_nonneg hlast]
      omega
  | noEnd hlast hlt hoffset hwalk =>
      have hnonneg : 0 ≤ first := by omega
      rw [if_neg (by omega), if_neg (by omega), indexPlace_of_nonneg hnonneg, indexPlace_of_nonneg hlast]
      omega

end Ranges

/-! ## The converted commands -/

namespace Db.Members

variable {db : Db} {name : Bytes} {L : List (ℤ × Bytes)}

/-- The members that a walk backward sees. -/
def below (L : List (ℤ × Bytes)) : List (ℤ × Bytes) := L.filter fun p => p.1 < 2 ^ 63 - 1

/-- The others come last. -/
theorem below_prefix (h : db.Members name L) : below L <+: L := by
  rw [below, ← OrderedMap.takeWhile_eq_filter]
  · exact List.takeWhile_prefix _
  · refine h.sorted.imp ?_
    intro p q hlt hq
    simp only [decide_eq_true_eq] at hq ⊢
    exact (itemLt_le hlt).trans_lt hq

/-- The walk backward begins behind the members with the greatest score. -/
theorem reverse_below (h : db.Members name L) :
    (below L).reverse = L.reverse.drop (L.length - (below L).length) := by
  obtain ⟨tops, htops⟩ := h.below_prefix
  have hlength := congrArg List.length htops
  rw [List.length_append] at hlength
  have hreverse : L.reverse = tops.reverse ++ (below L).reverse := by
    rw [← List.reverse_append, htops]
  have hcount : L.length - (below L).length = tops.reverse.length := by
    rw [List.length_reverse]
    omega
  rw [hreverse, hcount, List.drop_left]

/-- `zrange` with the bounds of indices. -/
theorem zrange_indices_iff (h : db.Members name L) (hname : IsShort name) {first last : ℤ}
    (hfirst : IsInt64 first) (hlast : IsInt64 last) (hforward : Forwarded first last) :
    zrange db name (strtoull (str first)) (strtoull (str (RedisLink.rangeSize first last))) =
        (indexRange L first last).map itemText ↔
      IndicesRight false L.length (seen (2 ^ 63 - 1) L).length first last := by
  have hbegin := h.seen_all_prefix
  rw [zrange, h.ziterator_all hname, ← List.map_drop, map_itemText_inj, indexRange,
    List.prefix_iff_eq_take.mp hbegin, List.take_take, segment_eq_iff (nodup_of_sorted h.sorted),
    List.length_take, min_eq_left hbegin.length_le]
  exact forward_right_iff (boundsCase hfirst hlast hforward) hbegin.length_le hfirst

/-- `zrrange` with the bounds of indices. -/
theorem zrrange_indices_iff (h : db.Members name L) (hname : IsShort name) {first last : ℤ}
    (hfirst : IsInt64 first) (hlast : IsInt64 last) (hforward : Forwarded first last) :
    zrrange db name (strtoull (str first)) (strtoull (str (RedisLink.rangeSize first last))) =
        (indexRange L.reverse first last).map itemText ↔
      IndicesRight true L.length (below L).length first last := by
  have hle := h.below_prefix.length_le
  have hwalk : ∀ limit, zrevIterator db name [] [] [] limit =
      ((L.reverse.drop (L.length - (below L).length)).take limit).map itemText := by
    intro limit
    rw [h.zrevIterator_eq hname, ← below, h.reverse_below]
  rw [zrrange, hwalk, ← List.map_drop, map_itemText_inj, indexRange, List.take_drop, List.drop_drop,
    segment_eq_iff (List.nodup_reverse.mpr (nodup_of_sorted h.sorted)), List.length_reverse,
    backward_right_iff (boundsCase hfirst hlast hforward) (Nat.sub_le _ _) hfirst,
    Nat.sub_sub_self hle]

end Db.Members

/-- What is forwarded to the server. -/
theorem convertReq_range (toScore : ℤ → Bytes → ℤ × ℤ) (errno : ℤ) {cmd name ssdbCmd : Bytes}
    (options : List Bytes) {strategy : RedisLink.Strategy}
    (hcmd : RedisLink.cmdTable (RedisLink.toLower cmd) = some (strategy, ssdbCmd))
    (hstrategy : strategy = .zrange ∨ strategy = .zrevrange) {first last : ℤ} (hfirst : IsInt64 first)
    (hlast : IsInt64 last) (hforward : Forwarded first last) :
    (RedisLink.convertReq toScore errno (cmd :: name :: str first :: str last :: options)).1 =
      ssdbCmd :: name :: str first :: str (RedisLink.rangeSize first last) ::
        (options.head?.map RedisLink.toLower).toList := by
  have hrange : (RedisLink.convertRange errno (cmd :: name :: str first :: str last :: options)).1 =
      name :: str first :: str (RedisLink.rangeSize first last) ::
        (options.head?.map RedisLink.toLower).toList := by
    have hguard : (0 ≤ first ∧ 0 ≤ last) ∨ last = -1 := hforward
    simp only [RedisLink.convertRange, strToInt64, strtoll_str hfirst, strtoll_str hlast, if_pos hguard]
  simp only [RedisLink.convertReq, List.headD_cons, hcmd]
  rcases hstrategy with rfl | rfl
  · simp only [hrange]
  · simp only [hrange]

/-- **Rank ranges of Redis** are those of the sorted list exactly for the indices of `IndicesRight`: after
any operations, for the list of the members of a sorted set and all indices that are forwarded, the
converted command replies with the items from the first to the last index, for `ZREVRANGE` those of the
reversed list. -/
theorem redis_ranges (steps : List StoreStep) {name : Bytes} (hname : IsShort name) :
    let db := steps.foldl Db.step OrderedMap.empty
    ∃ L : List (ℤ × Bytes), L.Pairwise itemLt ∧
      (∀ key s, (s, key) ∈ L ↔ zget db name key = some (str s)) ∧
      ∀ toScore errno cmd options first last, IsInt64 first → IsInt64 last → Forwarded first last →
        let req := (RedisLink.convertReq toScore errno
          (cmd :: name :: str first :: str last :: options)).1
        (RedisLink.toLower cmd = ascii "zrange" →
          (procZrange db req = ascii "ok" :: itemStrings ((indexRange L first last).map itemText) ↔
            IndicesRight false L.length (L.filter fun p => ¬ BeyondEnd (2 ^ 63 - 1) p).length
              first last)) ∧
        (RedisLink.toLower cmd = ascii "zrevrange" →
          (procZrrange db req =
              ascii "ok" :: itemStrings ((indexRange L.reverse first last).map itemText) ↔
            IndicesRight true L.length (L.filter fun p => p.1 < 2 ^ 63 - 1).length first last)) := by
  intro db
  obtain ⟨L, h⟩ := (isStore_run steps).exists_members hname
  refine ⟨L, h.sorted, h.mem, ?_⟩
  intro toScore errno cmd options first last hfirst hlast hforward
  constructor
  · intro hcmd
    have htable : RedisLink.cmdTable (RedisLink.toLower cmd) = some (.zrange, ascii "zrange") := by
      rw [hcmd]
      decide +kernel
    rw [convertReq_range toScore errno options htable (Or.inl rfl) hfirst hlast hforward, procZrange,
      procRange, List.cons_inj_right, itemStrings_injective.eq_iff]
    exact h.zrange_indices_iff hname hfirst hlast hforward
  · intro hcmd
    have htable : RedisLink.cmdTable (RedisLink.toLower cmd) = some (.zrevrange, ascii "zrrange") := by
      rw [hcmd]
      decide +kernel
    rw [convertReq_range toScore errno options htable (Or.inr rfl) hfirst hlast hforward, procZrrange,
      procRange, List.cons_inj_right, itemStrings_injective.eq_iff]
    exact h.zrrange_indices_iff hname hfirst hlast hforward

/-- A sorted set with two members. -/
def twoMembers : List StoreStep :=
  [.write (.zset (ascii "z") (ascii "a") (ascii "1")) .sync,
    .write (.zset (ascii "z") (ascii "b") (ascii "2")) .sync]

theorem redis_ranges_twoMembers :
    IsShort (ascii "z") ∧
      ∃ L : List (ℤ × Bytes), L.Pairwise itemLt ∧
        (procZrange (twoMembers.foldl Db.step OrderedMap.empty)
            (RedisLink.convertReq (fun errno s => (strtoll s, errno)) 0
              [ascii "ZRANGE", ascii "z", str 0, str (-1)]).1 =
            ascii "ok" :: itemStrings ((indexRange L 0 (-1)).map itemText) ↔
          IndicesRight false L.length (L.filter fun p => ¬ BeyondEnd (2 ^ 63 - 1) p).length 0 (-1)) := by
  have hname : IsShort (ascii "z") := by
    show (ascii "z").length ≤ 255
    decide
  obtain ⟨L, hsorted, -, hranges⟩ := redis_ranges twoMembers hname
  refine ⟨hname, L, hsorted, ?_⟩
  exact (hranges _ 0 (ascii "ZRANGE") [] 0 (-1) (by decide) (by decide) (Or.inr rfl)).1 (by decide +kernel)

/-- `ZRANGE z -1 -1` asks for the last member and gets none: the offset is `2^64 - 1`. -/
theorem zrange_misses_last :
    procZrange (twoMembers.foldl Db.step OrderedMap.empty)
        (RedisLink.convertReq (fun errno s => (strtoll s, errno)) 0
          [ascii "zrange", ascii "z", ascii "-1", ascii "-1"]).1 = [ascii "ok"] ∧
      indexRange [(1, ascii "a"), (2, ascii "b")] (-1) (-1) = [(2, ascii "b")] := by
  constructor <;> decide +kernel

end Ssdb
