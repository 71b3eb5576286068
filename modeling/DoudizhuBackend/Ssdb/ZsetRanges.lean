/-
# Range queries and the sorted list

`zrange`, `zrank` and `zscan` of `ssdb-master/src/ssdb/t_zset.cpp`, `zcount` of `proc_zset.cpp`.  They
walk forward over the members, from behind a start, and the end of a walk is the record of the key
`"\xff"` under the last score.  A key like `"\xff\x01"` stands behind that record: under the last score
it is not seen (`BeyondEnd`).  These members come last in the range, so that a walk is a beginning of the
range, and a query is right when it asks for no more than that beginning (`zset_ranges`).
-/
import DoudizhuBackend.Ssdb.ZsetMembers

namespace Ssdb

/-! ## Queries -/

/-- `INT_MAX`. -/
def intMax : ℕ := 2 ^ 31 - 1

/-- The loop of `zrank` and `zrrank`: the place of a key, or -1. -/
def rankIn (list : List (Bytes × Bytes)) (key : Bytes) : ℤ :=
  match list.findIdx? (·.1 = key) with
  | none => -1
  | some i => i

/-- `zrank`, which counts from the front. -/
def zrank (db : Db) (name key : Bytes) : ℤ := rankIn (ziterator db name [] [] [] intMax) key

/-- `zrrank`, which counts from the back. -/
def zrrank (db : Db) (name key : Bytes) : ℤ := rankIn (zrevIterator db name [] [] [] intMax) key

/-- `zrrange`. -/
def zrrange (db : Db) (name : Bytes) (offset limit : ℕ) : List (Bytes × Bytes) :=
  (zrevIterator db name [] [] [] (rangeLimit offset limit)).drop offset

/-- `proc_zcount`. -/
def procZcount (db : Db) (name scoreStart scoreEnd : Bytes) : List Bytes :=
  replyInt 0 (zscan db name [] scoreStart scoreEnd noLimit).length

/-! ## Queries on the sorted list -/

/-- The members behind `(first, key)` with a score of at most `last`. -/
def membersIn (L : List (ℤ × Bytes)) (first : ℤ) (key : Bytes) (last : ℤ) : List (ℤ × Bytes) :=
  L.filter fun p => itemLt (first, key) p ∧ p.1 ≤ last

/-- The score that a scan starts from: the one that is given, that of the key, or the lowest one. -/
def firstScore (L : List (ℤ × Bytes)) (key scoreStart : Bytes) : ℤ :=
  scoreOr scoreStart (((L.find? (·.2 = key)).map (·.1)).getD (-2 ^ 63))

/-- A member that the end of a walk leaves out. -/
def BeyondEnd (last : ℤ) (p : ℤ × Bytes) : Prop := p.1 = last ∧ keyLast < p.2

instance decidableBeyondEnd (last : ℤ) (p : ℤ × Bytes) : Decidable (BeyondEnd last p) :=
  inferInstanceAs (Decidable (_ ∧ _))

/-- The members that a walk up to `last` does see. -/
def seen (last : ℤ) (L : List (ℤ × Bytes)) : List (ℤ × Bytes) := L.filter fun p => ¬ BeyondEnd last p

/-- **The arguments for which `zrange` is right**: nothing is asked for, or there is nothing to see; or
what is asked for is seen, and `offset + limit` does not wrap or the limit is no limit. -/
def ZrangeRight (L : List (ℤ × Bytes)) (offset limit : ℕ) : Prop :=
  limit = 0 ∨ L.length ≤ offset ∨
  (offset + limit < 2 ^ 64 ∧ offset + limit ≤ (seen (2 ^ 63 - 1) L).length) ∨
  ((∀ p ∈ L, ¬ BeyondEnd (2 ^ 63 - 1) p) ∧ (offset + limit < 2 ^ 64 ∨ L.length ≤ limit))

/-- **The keys for which `zrank` is right**: those of no member, and those of a member that is seen
among the first `INT_MAX`. -/
def ZrankRight (L : List (ℤ × Bytes)) (key : Bytes) : Prop :=
  ∀ i s, L[i]? = some (s, key) → i < intMax ∧ ¬ BeyondEnd (2 ^ 63 - 1) (s, key)

/-- **The ranges for which a scan is right.** -/
def ZscanRight (range : List (ℤ × Bytes)) (last : ℤ) (limit : ℕ) : Prop :=
  limit ≤ (seen last range).length ∨ ∀ p ∈ range, ¬ BeyondEnd last p

theorem str_ne_nil (z : ℤ) : str z ≠ [] := by
  intro h
  have hz := readInt_str z
  rw [h] at hz
  rw [← hz] at h
  exact absurd h (by decide)

/-! ## Beginnings of lists -/

/-- Two beginnings of a list are equal if they have the same length. -/
theorem prefix_eq_iff {α : Type} {P Q R : List α} (hP : P <+: R) (hQ : Q <+: R) :
    P = Q ↔ P.length = Q.length := by
  constructor
  · exact congrArg List.length
  · intro h
    rw [List.prefix_iff_eq_take.mp hP, List.prefix_iff_eq_take.mp hQ, h]

theorem prefix_drop {α : Type} {P R : List α} (h : P <+: R) (n : ℕ) : P.drop n <+: R.drop n := by
  obtain ⟨t, rfl⟩ := h
  rw [List.drop_append]
  exact List.prefix_append _ _

/-- An element is found in a beginning of a list if its place is there. -/
theorem findIdx?_prefix_iff {α : Type} {P R : List α} (hP : P <+: R) (f : α → Bool) :
    P.findIdx? f = R.findIdx? f ↔ ∀ i, R.findIdx? f = some i → i < P.length := by
  obtain ⟨t, rfl⟩ := hP
  rw [List.findIdx?_append]
  cases hfind : P.findIdx? f with
  | some i =>
      rw [Option.some_or]
      refine iff_of_true rfl ?_
      intro j hj
      rw [← Option.some.inj hj]
      exact (List.findIdx?_eq_some_iff_getElem.mp hfind).1
  | none =>
      rw [Option.none_or]
      constructor
      · intro heq i hi
        rw [← heq] at hi
        cases hi
      · intro hlt
        symm
        rw [Option.map_eq_none_iff, Option.eq_none_iff_forall_ne_some]
        intro j hj
        have hbound := hlt (j + P.length) (by rw [hj]; rfl)
        omega

theorem nodup_of_sorted {L : List (ℤ × Bytes)} (h : L.Pairwise itemLt) : L.Nodup := by
  refine h.imp ?_
  rintro p q hlt rfl
  rcases hlt with hlt | ⟨-, hlt⟩
  · exact lt_irrefl _ hlt
  · exact lt_irrefl _ hlt

section Seen

variable {L : List (ℤ × Bytes)} {last : ℤ}

/-- What the end of a walk excludes. -/
theorem not_itemLt_end_iff (p : ℤ × Bytes) :
    ¬ itemLt (last, keyLast) p ↔ p.1 ≤ last ∧ ¬ BeyondEnd last p := by
  rw [itemLt, BeyondEnd, not_or, not_lt, @eq_comm ℤ last]

/-- The members that are not seen come last. -/
theorem seen_prefix (hsorted : L.Pairwise itemLt) (hlast : ∀ p ∈ L, p.1 ≤ last) : seen last L <+: L := by
  rw [seen, ← OrderedMap.takeWhile_eq_filter]
  · exact List.takeWhile_prefix _
  · refine hsorted.imp_of_mem ?_
    intro p q hp hq hlt hseen
    simp only [decide_eq_true_eq] at hseen ⊢
    rintro ⟨hscore, hkey⟩
    -- behind a member that is not seen there is no other score
    rcases hlt with hlt | ⟨heq, hlt⟩
    · have := hlast q hq
      omega
    · exact hseen ⟨by rw [← heq, hscore], hkey.trans hlt⟩

theorem length_seen_eq_iff : (seen last L).length = L.length ↔ ∀ p ∈ L, ¬ BeyondEnd last p := by
  rw [seen, List.length_filter_eq_length_iff]
  simp

/-- The places of the members that are seen. -/
theorem lt_length_seen_iff (hbegin : seen last L <+: L) (hnodup : L.Nodup) {i : ℕ} {p : ℤ × Bytes}
    (hp : L[i]? = some p) : i < (seen last L).length ↔ ¬ BeyondEnd last p := by
  obtain ⟨hi, hget⟩ := List.getElem?_eq_some_iff.mp hp
  constructor
  · intro hlt
    have hmem : p ∈ seen last L := by
      rw [← hget, ← List.IsPrefix.getElem hbegin hlt]
      exact List.getElem_mem hlt
    simpa using (List.mem_filter.mp hmem).2
  · intro hseen
    have hmem : p ∈ seen last L :=
      List.mem_filter.mpr ⟨hget ▸ List.getElem_mem hi, by simpa using hseen⟩
    obtain ⟨j, hj, hgetj⟩ := List.mem_iff_getElem.mp hmem
    rw [List.IsPrefix.getElem hbegin hj, ← hget, hnodup.getElem_inj_iff] at hgetj
    omega

end Seen

/-- Where every key occurs once, it is found at its place. -/
theorem findIdx?_of_getElem? {L : List (ℤ × Bytes)} (hkeys : (L.map Prod.snd).Nodup) {i : ℕ} {s : ℤ}
    {key : Bytes} (h : L[i]? = some (s, key)) : L.findIdx? (·.2 = key) = some i := by
  obtain ⟨hi, hget⟩ := List.getElem?_eq_some_iff.mp h
  rw [List.findIdx?_eq_some_iff_getElem]
  refine ⟨hi, by simp [hget], ?_⟩
  intro j hj hkey
  have hi' : i < (L.map Prod.snd).length := by rwa [List.length_map]
  have hj' : j < (L.map Prod.snd).length := hj.trans hi'
  have hsame : (L.map Prod.snd)[j] = (L.map Prod.snd)[i] := by
    rw [List.getElem_map, List.getElem_map, hget]
    exact of_decide_eq_true hkey
  exact hj.ne (hkeys.getElem_inj_iff.mp hsame)

/-- The same place is found in two lists. -/
theorem rankIn_eq_iff {L L' : List (ℤ × Bytes)} {key : Bytes} :
    rankIn (L.map itemText) key = rankIn (L'.map itemText) key ↔
      L.findIdx? (·.2 = key) = L'.findIdx? (·.2 = key) := by
  rw [rankIn, rankIn, List.findIdx?_map, List.findIdx?_map]
  have hcomp : ((fun p : Bytes × Bytes => decide (p.1 = key)) ∘ itemText) =
      fun p : ℤ × Bytes => decide (p.2 = key) := rfl
  rw [hcomp]
  cases L.findIdx? (·.2 = key) <;> cases L'.findIdx? (·.2 = key)
  · simp
  · simp
  · simp
  · simp

theorem replyInt_inj {m n : ℕ} : replyInt 0 m = replyInt 0 n ↔ m = n := by
  rw [replyInt, replyInt, if_neg (by decide), if_neg (by decide)]
  constructor
  · intro h
    have hstr := (List.cons.inj (List.cons.inj h).2).1
    exact Int.ofNat_inj.mp (str_injective hstr)
  · rintro rfl
    rfl

/-! ## The queries agree with the list -/

namespace Db.Members

variable {db : Db} {name : Bytes} {L : List (ℤ × Bytes)}

/-- A walk forward sees a beginning of its range. -/
theorem ziterator_seen (h : db.Members name L) (hname : IsShort name)
    (keyStart scoreStart scoreEnd : Bytes) (limit : ℕ) :
    ziterator db name keyStart scoreStart scoreEnd limit =
      ((seen (scoreOr scoreEnd (2 ^ 63 - 1)) (membersIn L (scoreOr scoreStart (-2 ^ 63)) keyStart
        (scoreOr scoreEnd (2 ^ 63 - 1)))).take limit).map itemText := by
  rw [h.ziterator_eq hname, seen, membersIn, List.filter_filter]
  congr 2
  apply List.filter_congr
  intro p _
  rw [Bool.eq_iff_iff]
  simp only [not_itemLt_end_iff, decide_eq_true_eq, Bool.and_eq_true]
  tauto

/-- A key has one score. -/
theorem score_unique (h : db.Members name L) {p q : ℤ × Bytes} (hp : p ∈ L) (hq : q ∈ L)
    (hkey : p.2 = q.2) : p = q := by
  have hp := (h.mem p.2 p.1).mp hp
  have hq := (h.mem q.2 q.1).mp hq
  rw [hkey, hq] at hp
  exact Prod.ext (str_injective (Option.some.inj hp)).symm hkey

theorem itemLt_first_iff (h : db.Members name L) {p : ℤ × Bytes} (hp : p ∈ L) (first : ℤ) :
    itemLt (first, []) p ↔ first ≤ p.1 := by
  have hkey : [] < p.2 := by
    obtain ⟨b, t, hcons⟩ := List.exists_cons_of_ne_nil (h.key_ne_nil p hp)
    rw [hcons]
    exact List.nil_lt_cons b t
  rw [itemLt, le_iff_lt_or_eq]
  simp [hkey]

/-- The range without bounds is the list. -/
theorem membersIn_all (h : db.Members name L) : membersIn L (-2 ^ 63) [] (2 ^ 63 - 1) = L := by
  rw [membersIn, List.filter_eq_self]
  intro p hp
  have hint := h.isInt64 p hp
  rw [IsInt64] at hint
  simp only [decide_eq_true_eq, h.itemLt_first_iff hp]
  omega

/-- A walk without bounds. -/
theorem ziterator_all (h : db.Members name L) (hname : IsShort name) (limit : ℕ) :
    ziterator db name [] [] [] limit = ((seen (2 ^ 63 - 1) L).take limit).map itemText := by
  have hwalk := h.ziterator_seen hname [] [] [] limit
  simp only [scoreOr, if_true] at hwalk
  rw [hwalk, h.membersIn_all]

theorem seen_all_prefix (h : db.Members name L) : seen (2 ^ 63 - 1) L <+: L := by
  apply seen_prefix h.sorted
  intro p hp
  have hint := h.isInt64 p hp
  rw [IsInt64] at hint
  omega

/-- `zrange` is a part of the list. -/
theorem zrange_eq_iff (h : db.Members name L) (hname : IsShort name) {offset limit : ℕ}
    (hoffset : offset < 2 ^ 64) (hlimit : limit < 2 ^ 64) :
    zrange db name offset limit = ((L.drop offset).take limit).map itemText ↔
      ZrangeRight L offset limit := by
  have hbegin := h.seen_all_prefix
  have hle := hbegin.length_le
  have hpart : ((seen (2 ^ 63 - 1) L).take (rangeLimit offset limit)).drop offset <+: L.drop offset :=
    prefix_drop ((List.take_prefix _ _).trans hbegin) offset
  -- both sides are beginnings of what is left of the list
  rw [zrange, h.ziterator_all hname, ← List.map_drop, map_itemText_inj, ZrangeRight,
    ← length_seen_eq_iff, prefix_eq_iff hpart (List.take_prefix _ _)]
  simp only [List.length_drop, List.length_take, rangeLimit]
  generalize (seen (2 ^ 63 - 1) L).length = n at *
  split_ifs <;> omega

theorem keys_nodup (h : db.Members name L) : (L.map Prod.snd).Nodup := by
  apply (nodup_of_sorted h.sorted).map_on
  exact fun p hp q hq hkey => h.score_unique hp hq hkey

/-- The place of a key. -/
theorem findIdx?_eq_some_iff (h : db.Members name L) {key : Bytes} (i : ℕ) :
    L.findIdx? (·.2 = key) = some i ↔ ∃ s, L[i]? = some (s, key) := by
  constructor
  · intro hfind
    obtain ⟨hi, hkey, -⟩ := List.findIdx?_eq_some_iff_getElem.mp hfind
    refine ⟨L[i].1, ?_⟩
    rw [List.getElem?_eq_getElem hi, ← of_decide_eq_true hkey]
  · rintro ⟨s, hs⟩
    exact findIdx?_of_getElem? h.keys_nodup hs

/-- `zrank` is the place in the list. -/
theorem zrank_eq_iff (h : db.Members name L) (hname : IsShort name) (key : Bytes) :
    zrank db name key = rankIn (L.map itemText) key ↔ ZrankRight L key := by
  have hbegin := h.seen_all_prefix
  have hseen : ∀ {i : ℕ} {p : ℤ × Bytes}, L[i]? = some p →
      (i < (seen (2 ^ 63 - 1) L).length ↔ ¬ BeyondEnd (2 ^ 63 - 1) p) := by
    intro i p hp
    exact lt_length_seen_iff hbegin (nodup_of_sorted h.sorted) hp
  rw [zrank, h.ziterator_all hname, rankIn_eq_iff,
    findIdx?_prefix_iff ((List.take_prefix _ _).trans hbegin)]
  simp only [List.length_take, lt_min_iff]
  constructor
  · intro hfound i s hi
    have hplace := hfound i ((h.findIdx?_eq_some_iff i).mpr ⟨s, hi⟩)
    exact ⟨hplace.1, (hseen hi).mp hplace.2⟩
  · intro hright i hi
    obtain ⟨s, hs⟩ := (h.findIdx?_eq_some_iff i).mp hi
    obtain ⟨hplace, hend⟩ := hright i s hs
    exact ⟨hplace, (hseen hs).mpr hend⟩

/-- The score that a scan starts from. -/
theorem scoreOr_scanScore (h : db.Members name L) (key scoreStart : Bytes) :
    scoreOr (scanScore db name key scoreStart) (-2 ^ 63) = firstScore L key scoreStart := by
  by_cases hstart : scoreStart = []
  · subst hstart
    cases hfind : L.find? (·.2 = key) with
    | some p =>
        have hp := List.mem_of_find?_eq_some hfind
        have hkey : p.2 = key := by simpa using List.find?_some hfind
        have hget := (h.mem p.2 p.1).mp hp
        rw [hkey] at hget
        have hne : key ≠ [] := hkey ▸ h.key_ne_nil p hp
        have hscan : scanScore db name key [] = str p.1 := by
          rw [scanScore, if_pos ⟨hne, rfl⟩, hget]
          rfl
        rw [hscan, firstScore, hfind, scoreOr, if_neg (str_ne_nil _), strtoll_str (h.isInt64 p hp)]
        rfl
    | none =>
        have hget : (zget db name key).getD [] = [] := by
          cases hzget : zget db name key with
          | none => rfl
          | some score =>
              obtain ⟨s, rfl⟩ := h.text key score hzget
              have hmem := (h.mem key s).mpr hzget
              exact absurd (by simp) (List.find?_eq_none.mp hfind _ hmem)
        rw [scanScore, hget, ite_self, firstScore, hfind]
        rfl
  · have hscan : scanScore db name key scoreStart = scoreStart := by simp [scanScore, hstart]
    rw [hscan, firstScore, scoreOr, scoreOr, if_neg hstart, if_neg hstart]

/-- A scan is a part of the list. -/
theorem zscan_eq_iff (h : db.Members name L) (hname : IsShort name) (key scoreStart scoreEnd : Bytes)
    (limit : ℕ) :
    zscan db name key scoreStart scoreEnd limit =
        ((membersIn L (firstScore L key scoreStart) key (scoreOr scoreEnd (2 ^ 63 - 1))).take limit).map
          itemText ↔
      ZscanRight (membersIn L (firstScore L key scoreStart) key (scoreOr scoreEnd (2 ^ 63 - 1)))
        (scoreOr scoreEnd (2 ^ 63 - 1)) limit := by
  have hbegin : seen (scoreOr scoreEnd (2 ^ 63 - 1)) (membersIn L (firstScore L key scoreStart) key
      (scoreOr scoreEnd (2 ^ 63 - 1))) <+: membersIn L (firstScore L key scoreStart) key
        (scoreOr scoreEnd (2 ^ 63 - 1)) := by
    apply seen_prefix (h.sorted.filter _)
    intro p hp
    exact (of_decide_eq_true (List.mem_filter.mp hp).2).2
  rw [zscan, h.ziterator_seen hname, h.scoreOr_scanScore, map_itemText_inj, ZscanRight,
    ← length_seen_eq_iff, prefix_eq_iff ((List.take_prefix _ _).trans hbegin) (List.take_prefix _ _),
    List.length_take, List.length_take]
  have hle := hbegin.length_le
  omega

/-- The members with a score between two bounds. -/
def between (L : List (ℤ × Bytes)) (first last : ℤ) : List (ℤ × Bytes) :=
  L.filter fun p => first ≤ p.1 ∧ p.1 ≤ last

/-- A scan from score to score. -/
theorem zscan_scores (h : db.Members name L) (hname : IsShort name) (scoreStart scoreEnd : Bytes)
    (limit : ℕ) :
    zscan db name [] scoreStart scoreEnd limit =
      ((seen (scoreOr scoreEnd (2 ^ 63 - 1)) (between L (scoreOr scoreStart (-2 ^ 63))
        (scoreOr scoreEnd (2 ^ 63 - 1)))).take limit).map itemText := by
  have hscan : scanScore db name [] scoreStart = scoreStart := by simp [scanScore]
  have hrange : membersIn L (scoreOr scoreStart (-2 ^ 63)) [] (scoreOr scoreEnd (2 ^ 63 - 1)) =
      between L (scoreOr scoreStart (-2 ^ 63)) (scoreOr scoreEnd (2 ^ 63 - 1)) := by
    apply List.filter_congr
    intro p hp
    simp only [h.itemLt_first_iff hp]
  rw [zscan, hscan, h.ziterator_seen hname, hrange]

/-- The scan sees all members between the bounds. -/
theorem length_seen_between_iff (L : List (ℤ × Bytes)) (first last : ℤ) :
    (seen last (between L first last)).length = (between L first last).length ↔
      ∀ p ∈ L, first ≤ p.1 → ¬ BeyondEnd last p := by
  rw [length_seen_eq_iff]
  simp only [between, List.mem_filter, decide_eq_true_eq]
  constructor
  · intro hall p hp hfirst hend
    exact hall p ⟨hp, hfirst, hend.1.le⟩ hend
  · rintro hall p ⟨hp, hfirst, -⟩
    exact hall p hp hfirst

/-- The count is the number of members in the range. -/
theorem procZcount_eq_iff (h : db.Members name L) (hname : IsShort name) (scoreStart scoreEnd : Bytes) :
    procZcount db name scoreStart scoreEnd =
        replyInt 0 (L.filter fun p => scoreOr scoreStart (-2 ^ 63) ≤ p.1 ∧
          p.1 ≤ scoreOr scoreEnd (2 ^ 63 - 1)).length ↔
      (∀ p ∈ L, scoreOr scoreStart (-2 ^ 63) ≤ p.1 → ¬ BeyondEnd (scoreOr scoreEnd (2 ^ 63 - 1)) p) ∧
        (L.filter fun p => scoreOr scoreStart (-2 ^ 63) ≤ p.1 ∧
          p.1 ≤ scoreOr scoreEnd (2 ^ 63 - 1)).length < 2 ^ 64 := by
  rw [procZcount, h.zscan_scores hname, ← length_seen_between_iff, ← between, List.length_map,
    List.length_take, replyInt_inj, noLimit]
  have hle : (seen (scoreOr scoreEnd (2 ^ 63 - 1)) (between L (scoreOr scoreStart (-2 ^ 63))
      (scoreOr scoreEnd (2 ^ 63 - 1)))).length ≤ (between L (scoreOr scoreStart (-2 ^ 63))
        (scoreOr scoreEnd (2 ^ 63 - 1))).length := List.length_filter_le _ _
  omega

/-- A scan that goes on behind a score and a key. -/
theorem zscan_behind (h : db.Members name L) (hname : IsShort name) {s : ℤ} (hs : IsInt64 s) (key : Bytes)
    (limit : ℕ) :
    zscan db name key (str s) [] limit =
      (((seen (2 ^ 63 - 1) L).filter fun p => itemLt (s, key) p).take limit).map itemText := by
  have hscan : scanScore db name key (str s) = str s := by
    rw [scanScore, if_neg]
    exact fun hboth => str_ne_nil s hboth.2
  have hfirst : scoreOr (str s) (-2 ^ 63) = s := by
    rw [scoreOr, if_neg (str_ne_nil s), strtoll_str hs]
  have hlast : scoreOr [] (2 ^ 63 - 1) = 2 ^ 63 - 1 := if_pos rfl
  rw [zscan, hscan, h.ziterator_seen hname, hfirst, hlast]
  simp only [seen, membersIn, List.filter_filter]
  congr 2
  apply List.filter_congr
  intro p hp
  have hint := h.isInt64 p hp
  simp only [IsInt64] at hint
  rw [Bool.eq_iff_iff]
  simp only [Bool.and_eq_true, decide_eq_true_eq]
  constructor
  · rintro ⟨hseen, hlt, -⟩
    exact ⟨hlt, hseen⟩
  · rintro ⟨hlt, hseen⟩
    exact ⟨hseen, hlt, by omega⟩

end Db.Members

/-- **Range queries agree with the sorted list** as long as they need not see a member beyond the end:
after any operations, the members of a sorted set make a list, sorted by score and key, and `zrange`,
`zrank`, `zscan` and `zcount` return what they do on the list exactly under the conditions of
`ZrangeRight`, `ZrankRight` and `ZscanRight`. -/
theorem zset_ranges (steps : List StoreStep) {name : Bytes} (hname : IsShort name) :
    let db := steps.foldl Db.step OrderedMap.empty
    ∃ L : List (ℤ × Bytes), L.Pairwise itemLt ∧
      (∀ key s, (s, key) ∈ L ↔ zget db name key = some (str s)) ∧
      (∀ key score, zget db name key = some score → ∃ s, score = str s) ∧
      (∀ offset < 2 ^ 64, ∀ limit < 2 ^ 64,
        (zrange db name offset limit = ((L.drop offset).take limit).map itemText ↔
          ZrangeRight L offset limit)) ∧
      (∀ key, zrank db name key = rankIn (L.map itemText) key ↔ ZrankRight L key) ∧
      (∀ key scoreStart scoreEnd limit,
        let last := scoreOr scoreEnd (2 ^ 63 - 1)
        let range := membersIn L (firstScore L key scoreStart) key last
        (zscan db name key scoreStart scoreEnd limit = (range.take limit).map itemText ↔
          ZscanRight range last limit)) ∧
      ∀ scoreStart scoreEnd,
        let first := scoreOr scoreStart (-2 ^ 63)
        let last := scoreOr scoreEnd (2 ^ 63 - 1)
        let counted := L.filter fun p => first ≤ p.1 ∧ p.1 ≤ last
        (procZcount db name scoreStart scoreEnd = replyInt 0 counted.length ↔
          (∀ p ∈ L, first ≤ p.1 → ¬ BeyondEnd last p) ∧ counted.length < 2 ^ 64) := by
  intro db
  obtain ⟨L, h⟩ := (isStore_run steps).exists_members hname
  refine ⟨L, h.sorted, h.mem, h.text, ?_, ?_, ?_, ?_⟩
  · exact fun offset hoffset limit hlimit => h.zrange_eq_iff hname hoffset hlimit
  · exact h.zrank_eq_iff hname
  · exact fun key scoreStart scoreEnd limit => h.zscan_eq_iff hname key scoreStart scoreEnd limit
  · exact h.procZcount_eq_iff hname

/-- Four members, the last of them with a key behind `"\xff"`. -/
def fourMembers : List StoreStep :=
  [.write (.zset (ascii "z") (ascii "a") (ascii "1")) .sync, .write (.zset (ascii "z") (ascii "b") (ascii "5")) .sync,
    .write (.zset (ascii "z") (ascii "c") (ascii "3")) .sync, .write (.zset (ascii "z") [255, 1] (ascii "5")) .sync]

theorem zset_ranges_fourMembers :
    IsShort (ascii "z") ∧
      ∃ L : List (ℤ × Bytes), L.Pairwise itemLt ∧
        (∀ key s, (s, key) ∈ L ↔
          zget (fourMembers.foldl Db.step OrderedMap.empty) (ascii "z") key = some (str s)) ∧
        (zrange (fourMembers.foldl Db.step OrderedMap.empty) (ascii "z") 1 2 =
          ((L.drop 1).take 2).map itemText ↔ ZrangeRight L 1 2) ∧
        (∀ key, zrank (fourMembers.foldl Db.step OrderedMap.empty) (ascii "z") key =
          rankIn (L.map itemText) key ↔ ZrankRight L key) ∧
        zrange (fourMembers.foldl Db.step OrderedMap.empty) (ascii "z") 1 2 =
          [(ascii "c", ascii "3"), (ascii "b", ascii "5")] ∧
        zrank (fourMembers.foldl Db.step OrderedMap.empty) (ascii "z") (ascii "b") = 2 := by
  have hname : IsShort (ascii "z") := show (ascii "z").length ≤ 255 by decide
  obtain ⟨L, hsorted, hmem, -, hrange, hrank, -, -⟩ := zset_ranges fourMembers hname
  exact ⟨hname, L, hsorted, hmem, hrange 1 (by decide) 2 (by decide), hrank, by decide +kernel, by decide +kernel⟩

/-- One member whose key stands behind `"\xff"`. -/
def highKey : List StoreStep := [.write (.zset (ascii "z") [255, 1] (ascii "5")) .sync]

/-- The member has the score 5, and nothing is counted from 5 to 5. -/
theorem zcount_misses_highKey :
    zget (highKey.foldl Db.step OrderedMap.empty) (ascii "z") [255, 1] = some (ascii "5") ∧
      procZcount (highKey.foldl Db.step OrderedMap.empty) (ascii "z") (ascii "5") (ascii "5") =
        [ascii "ok", ascii "0"] := by
  constructor <;> decide +kernel

end Ssdb
